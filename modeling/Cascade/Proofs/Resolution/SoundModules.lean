import Cascade.Proofs.FileNames
import Cascade.Proofs.Package
import Cascade.Proofs.Resolution.Coherence

/-! # Modules of a sound world

Where all files can be read and all modules be run, loading a module goes wrong in
few ways only: its name is no name of a module, or its file is no module file. A
module that does not exist is no failure, and is reported by what asks for it. -/
namespace Cascade

/-- A world whose files can be read and whose modules can be run. -/
structure World.Sound (w : World) : Prop extends w.Named where
  readable : ∀ p f, ConfigFile.load w p ≠ .error (.fault f)
  runs : ∀ names run, (names, .script run) ∈ w.entries → ∃ members, run = .defines members

/-- A session of a world that has loaded its modules from files that can be. -/
structure Session.Placed (w : World) (s : Session) : Prop where
  world : s.world = w
  imported : ∀ e ∈ s.imported, ∀ f ∈ e.2.file, f.hasNul = false
  plugins : ∀ e ∈ s.plugins, ∀ f ∈ e.2.2, f.hasNul = false

theorem Session.placed_start (w : World) : (Session.start w).Placed w where
  world := rfl
  imported := by
    intro e he
    obtain ⟨m, -, rfl⟩ := List.mem_map.mp he
    simp
  plugins := by simp [Session.start]

/-- What an action gives that loads no plugin. -/
abbrev Loading (w : World) (plugins : List (String × Entries × Option Path)) {α : Type}
    (E : Failure → Prop) (a : Action α) (Q : α → Prop) : Prop :=
  Yields (fun s => s.Placed w ∧ s.plugins = plugins) E a Q

variable {w : World} {plugins : List (String × Entries × Option Path)} {E : Failure → Prop}

namespace Loading

theorem world : Loading w plugins E Action.world (w = ·) := fun _ hs => ⟨hs, hs.1.world.symm⟩

theorem shared : Loading w plugins E Action.shared (w.shared = ·) :=
  fun _ hs => ⟨hs, congrArg World.shared hs.1.world.symm⟩

theorem debug (source : Source) (message : String) :
    Loading w plugins E (Action.debug source message) fun _ => True :=
  fun _ hs => ⟨⟨⟨hs.1.world, hs.1.imported, hs.1.plugins⟩, hs.2⟩, trivial⟩

end Loading

namespace Module

/-- A module is defined by running its file. -/
theorem execution_of_sound (hw : w.Sound) (path : Path) : ∃ members, execution w path = .defines members := by
  unfold execution
  split
  · rename_i run hf
    rcases World.find?_cases hf with ⟨names, hm⟩ | hd
    · exact hw.runs names run hm
    · cases hd
  · exact ⟨[], rfl⟩

theorem noteRun_loading (path : Path) : Loading w plugins E (noteRun path) fun _ => True :=
  Yields.modify fun _ hs => ⟨⟨hs.1.world, hs.1.imported, hs.1.plugins⟩, hs.2⟩

/-- A file fails to be loaded just when it is no module file. -/
theorem fromFile_loading (hw : w.Sound) (name : String) {path : Path} (hp : path.hasNul = false) :
    Loading w plugins (fun e => Text.endsWith path.name ".py" = false ∧ e = .notLoadable path.text)
      (fromFile name path) fun _ => True := by
  unfold fromFile
  refine Loading.world.bind fun _ hworld => ?_
  subst hworld
  refine (Yields.ofFault (Q := fun _ => True) (fun _ _ => trivial) fun e he => ?_).bind fun key _ => ?_
  · obtain ⟨q, hq⟩ := hw.exists_resolve hp
    rw [Module.key, hq] at he
    cases he
  refine Yields.get.bind fun s _ => ?_
  cases s.registry.lookup key with
  | some value => exact .pure trivial
  | none =>
    dsimp only
    split
    · rename_i hname
      exact .throw ⟨by simpa using hname, rfl⟩
    refine (noteRun_loading path).bind fun _ _ => ?_
    obtain ⟨members, hx⟩ := execution_of_sound hw path
    rw [hx]
    refine (Yields.modify fun t ht => ?_).bind fun _ _ => .pure trivial
    exact ⟨⟨ht.1.world, ht.1.imported, ht.1.plugins⟩, ht.2⟩

/-! ## Imports -/

/-- What a directory has under a name are files. -/
def Place.IsFile (w : World) : Place → Prop
  | .package found _ => w.isFile found = true
  | .file found => w.isFile found = true
  | .portion _ => True

theorem isFile_of_placeIn? {name : String} {directory : Path} {p : Place}
    (h : placeIn? w name directory = some p) : p.IsFile w := by
  unfold placeIn? at h
  split at h
  · cases h
  dsimp only at h
  split at h
  · rename_i hf
    cases h
    exact (Bool.and_eq_true_iff.mp hf).2
  split at h
  · rename_i hf
    cases h
    exact hf
  split at h
  · cases h
    trivial
  · cases h

theorem isFile_of_choose {places : List Place} (hp : ∀ p ∈ places, p.IsFile w) {portions : List Path}
    {file : Path} {below : Option (List Path)} (h : choose places portions = some (some file, below)) :
    w.isFile file = true := by
  induction places generalizing portions with
  | nil => cases portions <;> cases h
  | cons p rest ih =>
    cases p with
    | package found directory =>
      cases h
      exact hp (.package file directory) (by simp)
    | file found =>
      cases h
      exact hp (.file file) (by simp)
    | portion directory => exact ih (fun p hmem => hp p (List.mem_cons_of_mem _ hmem)) h

/-- An import that does not fail, of a module from a file that can be. -/
def Import.Placed : Import → Prop
  | .found m => ∀ f ∈ m.file, f.hasNul = false
  | .absent => True
  | .failed .. => False

theorem importIn_loading (hw : w.Sound) (name last : String) (directories : List Path) :
    Loading w plugins E (importIn name last directories) Import.Placed := by
  unfold importIn
  refine Loading.world.bind fun _ hworld => ?_
  subst hworld
  have remember : ∀ m : Imported, (∀ f ∈ m.file, f.hasNul = false) → Loading w plugins E (do
      modifyThe Session fun s => { s with imported := (name, m) :: s.imported }
      return Import.found m) Import.Placed := by
    intro m hm
    refine (Yields.modify fun s hs => ⟨⟨hs.1.world, fun e he => ?_, hs.1.plugins⟩, hs.2⟩).bind fun _ _ => .pure hm
    rcases List.mem_cons.mp he with rfl | he
    · exact hm
    · exact hs.1.imported e he
  dsimp only
  split
  · exact .pure trivial
  · exact remember _ (by simp)
  · rename_i file below hchosen
    have hfile : w.isFile file = true := by
      refine isFile_of_choose (fun p hp => ?_) hchosen
      obtain ⟨directory, -, hplace⟩ := List.mem_filterMap.mp hp
      exact isFile_of_placeIn? hplace
    refine (noteRun_loading _).bind fun _ _ => ?_
    obtain ⟨members, hx⟩ := execution_of_sound hw file
    rw [hx]
    exact remember _ (by simpa using hw.hasNul_of_isFile hfile)

theorem importParts_loading (hw : w.Sound) (parts : List String) :
    Loading w plugins E (importParts parts) Import.Placed := by
  induction parts with
  | nil => exact .pure trivial
  | cons last parents ih =>
    unfold importParts
    refine Yields.get.bind fun s hs => ?_
    split
    · rename_i m hl
      exact .pure (hs.1.imported _ (mem_of_lookup hl))
    · split
      · exact Loading.world.bind fun _ _ => importIn_loading hw _ _ _
      · refine ih.bind fun found hfound => ?_
        cases found with
        | found parent =>
          refine Yields.get.bind fun s hs => ?_
          split
          · rename_i m _ hl
            exact .pure (hs.1.imported _ (mem_of_lookup hl))
          · exact importIn_loading hw _ _ _
          · exact .pure trivial
        | absent => exact .pure trivial
        | failed kind message missing => exact hfound.elim

/-- An import fails just when the name is no name of a module. -/
theorem import?_loading (hw : w.Sound) (name : String) :
    Loading w plugins (fun e => ∃ f, nameFault? name = some f ∧ e = .fault f) (import? name)
      fun loaded => ∀ m ∈ loaded, ∀ f ∈ m.file, f.hasNul = false := by
  unfold import?
  split
  · rename_i hempty
    exact .throw ⟨.badValue, by rw [nameFault?, if_pos hempty], rfl⟩
  rename_i hempty
  split
  · rename_i hpoint
    exact .throw ⟨.unsupported, by rw [nameFault?, if_neg hempty, if_pos hpoint], rfl⟩
  refine (importParts_loading hw _).bind fun found hfound => ?_
  cases found with
  | found m => exact .pure fun _ hm => Option.some.inj hm ▸ hfound
  | absent => exact .pure (by simp)
  | failed kind message missing => exact hfound.elim

/-! ## Loading -/

/-- A module fails to be loaded just when it has no file and the name is no name of
a module. -/
theorem load?_loading (hw : w.Sound) (name : String) (directory : Path) :
    Loading w plugins (fun e => findFile w name directory = none ∧ ∃ f, nameFault? name = some f ∧ e = .fault f)
      (load? name (some directory)) fun loaded => ∀ m ∈ loaded, ∀ f ∈ m.file, f.hasNul = false := by
  unfold load?
  refine Loading.world.bind fun _ hworld => ?_
  subst hworld
  rw [Option.bind_some]
  split
  · rename_i path hpath
    have hnul := hw.hasNul_of_isFile (findFile_some hpath).1
    refine (Loading.debug _ _).bind fun _ _ => ?_
    refine ((fromFile_loading hw _ hnul).weaken fun e he => ?_).bind fun _ _ => .pure (by simpa using hnul)
    rw [endsWith_of_findFile hpath] at he
    cases he.1
  · rename_i hnone
    exact (import?_loading hw name).weaken fun e he => ⟨hnone, he⟩

/-- A path fails to be loaded just when it leads to a file that is no module file. -/
theorem loadPath?_loading (hw : w.Sound) {path : Path} (hp : path.hasNul = false) :
    Loading w plugins (fun e => w.isFile path = true ∧ Text.endsWith path.name ".py" = false ∧
        e = .notLoadable path.text)
      (loadPath? path) fun loaded => ∀ m ∈ loaded, ∀ f ∈ m.file, f.hasNul = false := by
  unfold loadPath?
  refine Loading.world.bind fun _ hworld => ?_
  subst hworld
  have hinner : (path.child packageFile).hasNul = false := Path.hasNul_child hp (by decide)
  dsimp only
  split
  · split
    · refine (Loading.debug _ _).bind fun _ _ => ?_
      refine ((fromFile_loading hw _ hinner).weaken fun e he => ?_).bind fun _ _ => .pure (by simpa using hinner)
      rw [endsWith_packageFile] at he
      cases he.1
    · exact .pure (by simp)
  · split
    · rename_i hfile
      refine (Loading.debug _ _).bind fun _ _ => ?_
      exact ((fromFile_loading hw _ hp).weaken fun e he => ⟨hfile, he⟩).bind fun _ _ => .pure (by simpa using hp)
    · exact .pure (by simp)

end Module

end Cascade
