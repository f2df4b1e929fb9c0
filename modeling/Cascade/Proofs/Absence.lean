import Cascade.Proofs.FileNames
import Cascade.Proofs.Resolution.Coherence

/-! # Modules that are missing and modules that fail

A module that can be imported is below its parent, which is run first. Where it is
does not depend on what running it does, so that it can be told from the files and
directories alone whether a module exists, and what is raised on the way to it. The
load of a name ends accordingly, except that an error which calls the name itself, or
a parent of it, a missing module is taken to mean that no such module exists. -/
namespace Cascade

/-- An error that the code of a module raises. -/
structure Raised where
  kind : String
  message : String
  /-- The module that it says is missing. -/
  missing : Option String
  deriving DecidableEq

/-- What running a module raises. -/
def Execution.raised? : Execution → Option Raised
  | .raises kind message missing => some ⟨kind, message, missing⟩
  | .defines _ => none

namespace Module

variable {r : Resolver} {w : World} {s : Session} {name last : String} {parts parents : List String}
  {directory : Option Path}

/-! ## Where modules are -/

/-- Where a module is that can be imported: its file, if it has one, and the
directories of the modules below it. The parts of its name come last first. -/
def place? (w : World) : List String → Option (Option Path × Option (List Path))
  | [] => none
  | last :: parents =>
    if (w.available.lookup (fullName (last :: parents))).isSome then some (none, none)
    else (if parents.isEmpty then some w.importPath else (place? w parents).bind Prod.snd).bind
      fun directories => choose (directories.filterMap (placeIn? w last)) []

/-- What is raised on the way to a module that can be imported: what the first of its
parents raises that fails, or else what the module itself raises. -/
def importError? (w : World) : List String → Option Raised
  | [] => none
  | last :: parents =>
    if (w.available.lookup (fullName (last :: parents))).isSome then none
    else (importError? w parents).or
      (((place? w (last :: parents)).bind Prod.fst).bind fun file => (execution w file).raised?)

theorem place?_searched (ha : w.available.lookup (fullName (last :: parents)) = none) :
    place? w (last :: parents) = (if parents.isEmpty then some w.importPath else (place? w parents).bind Prod.snd).bind
      fun directories => choose (directories.filterMap (placeIn? w last)) [] := by
  rw [place?, ha, Option.isSome_none, if_neg Bool.false_ne_true]

theorem importError?_searched (ha : w.available.lookup (fullName (last :: parents)) = none) :
    importError? w (last :: parents) = (importError? w parents).or
      (((place? w (last :: parents)).bind Prod.fst).bind fun file => (execution w file).raised?) := by
  rw [importError?, ha, Option.isSome_none, if_neg Bool.false_ne_true]

/-- What is known of an import from where its module is and what is raised. -/
def Import.Agrees (w : World) (parts : List String) : Import → Prop
  | .found m => importError? w parts = none ∧ place? w parts = some (m.file, m.below)
  | .absent => importError? w parts = none ∧ place? w parts = none
  | .failed kind message missing => importError? w parts = some ⟨kind, message, missing⟩

theorem agrees_of_available {members : List (String × Value)}
    (ha : w.available.lookup (fullName (last :: parents)) = some members) (v : Value) :
    (Import.found ⟨v, none, none⟩).Agrees w (last :: parents) := by
  refine ⟨?_, ?_⟩
  · rw [importError?, ha, Option.isSome_some, if_pos rfl]
  · rw [place?, ha, Option.isSome_some, if_pos rfl]

/-- A module is found, or fails, as the first place among directories tells. -/
theorem imported_agrees {directories : List Path} (ha : w.available.lookup (fullName (last :: parents)) = none)
    (he : importError? w parents = none)
    (hplace : place? w (last :: parents) = choose (directories.filterMap (placeIn? w last)) []) :
    (imported w name last directories).Agrees w (last :: parents) := by
  have herror : importError? w (last :: parents) =
      ((place? w (last :: parents)).bind Prod.fst).bind fun file => (execution w file).raised? := by
    rw [importError?_searched ha, he, Option.none_or]
  rw [imported, ← hplace]
  cases hp : place? w (last :: parents) with
  | none => exact ⟨by rw [herror, hp]; rfl, hp⟩
  | some place =>
    obtain ⟨file, below⟩ := place
    cases file with
    | none => exact ⟨by rw [herror, hp]; rfl, hp⟩
    | some file =>
      rw [hp] at herror
      simp only [Option.bind_some] at herror ⊢
      cases hx : execution w file with
      | raises kind message missing => rw [Import.Agrees, herror, hx]; rfl
      | defines members => exact ⟨by rw [herror, hx]; rfl, hp⟩

/-- Below a parent that is not there, or has no modules below it, nothing is found, and
below one that fails nothing is looked for. -/
theorem searched_agrees (ha : w.available.lookup (fullName (last :: parents)) = none)
    (hparents : parents ≠ [] → ∃ found, (importParts parents).outcome w = .ok found ∧ found.Agrees w parents) :
    ∃ found, searched w last parents = .ok found ∧ found.Agrees w (last :: parents) := by
  have hplace := place?_searched ha
  have herror := importError?_searched ha
  rw [searched]
  by_cases hp : parents = []
  · subst hp
    exact ⟨_, rfl, imported_agrees ha rfl hplace⟩
  have hempty : parents.isEmpty ≠ true := by simpa using hp
  obtain ⟨found, hfound, hagrees⟩ := hparents hp
  rw [if_neg hempty] at hplace ⊢
  rw [hfound]
  have nowhere : importError? w parents = none → (place? w parents).bind Prod.snd = none →
      Import.absent.Agrees w (last :: parents) := by
    intro he hnone
    rw [hnone] at hplace
    exact ⟨by rw [herror, he, hplace]; rfl, hplace⟩
  cases found with
  | found parent =>
    obtain ⟨he, hparent⟩ := hagrees
    rw [hparent, Option.bind_some] at hplace
    cases hb : parent.below with
    | none =>
      refine ⟨.absent, by simp only [ok_bind, hb], nowhere he ?_⟩
      rw [hparent, Option.bind_some, hb]
    | some directories =>
      rw [hb] at hplace
      exact ⟨_, by simp only [ok_bind, hb]; rfl, imported_agrees ha he hplace⟩
  | absent => exact ⟨.absent, rfl, nowhere hagrees.1 (by rw [hagrees.2, Option.bind_none])⟩
  | failed kind message missing =>
    refine ⟨.failed kind message missing, rfl, ?_⟩
    rw [Import.Agrees, herror, show importError? w parents = _ from hagrees, Option.some_or]

/-- Every import ends as it can be told from the world. -/
theorem importParts_agrees (r : Resolver) (hd : ∀ part ∈ parts, '.' ∉ part.toList) :
    ∃ found, (importParts parts).outcome w = .ok found ∧ found.Agrees w parts := by
  induction parts with
  | nil => exact ⟨.absent, rfl, rfl, rfl⟩
  | cons last parents ih =>
    have hparents : ∀ part ∈ parents, '.' ∉ part.toList := fun part hp => hd part (List.mem_cons_of_mem _ hp)
    have hstart := Session.lookup_start w (fullName (last :: parents))
    cases ha : w.available.lookup (fullName (last :: parents)) with
    | some members =>
      -- a module that is there without a file is not looked for, nor are its parents run
      rw [ha, Option.map_some] at hstart
      refine ⟨.found ⟨.object (.moduleNamed (fullName (last :: parents))) members, none, none⟩, ?_, agrees_of_available ha _⟩
      rw [Action.outcome, importParts_remembered (by simp) hstart]
    | none =>
      rw [ha, Option.map_none] at hstart
      obtain ⟨found, hfound, hagrees⟩ := searched_agrees ha fun _ => ih hparents
      have hrun := importParts_missing (fields_fullName (List.cons_ne_nil last parents) hd) (importParts_settled hparents)
        (Session.coherent_start r w) hstart
      exact ⟨found, hrun.1.trans hfound, hagrees⟩

/-! ## How a load ends -/

/-- The parts of a name, the last one first. -/
abbrev partsOf (name : String) : List String := (Text.fields '.' name).reverse

/-- How the load of a name ends whose import ends in the given way. -/
def Import.ending (name : String) : Import → Except Failure (Option Module)
  | .found m => .ok (some ⟨m.value, m.file⟩)
  | .absent => .ok none
  | .failed kind message missing =>
    if missing.any fun m => coversName m name then .ok none else .error (.raised kind message)

theorem not_startsWith_point (hn : ∀ part ∈ Text.fields '.' name, part ≠ "") :
    name ≠ "" ∧ Text.startsWith name "." = false := by
  refine ⟨?_, Bool.eq_false_iff.mpr fun hpoint => ?_⟩
  · rintro rfl
    exact hn "" (by decide) rfl
  · obtain ⟨rest, rfl⟩ := Text.startsWith_iff.mp hpoint
    have hfirst := Text.head?_fields '.' ("." ++ rest)
    rw [String.toList_append] at hfirst
    exact hn _ (List.mem_of_mem_head? hfirst) (by simp)

theorem import?_agrees (hs : s.Coherent r w) (hn : ∀ part ∈ Text.fields '.' name, part ≠ "") :
    ∃ found : Import, found.Agrees w (partsOf name) ∧ ((import? name).runFrom s).1 = found.ending name := by
  obtain ⟨hempty, hpoint⟩ := not_startsWith_point hn
  have hdots : ∀ part ∈ partsOf name, '.' ∉ part.toList :=
    fun part hp => Text.not_mem_of_mem_fields (List.mem_reverse.mp hp)
  obtain ⟨found, hfound, hagrees⟩ := importParts_agrees (w := w) r hdots
  have hrun := (importParts_settled hdots s hs).2.trans hfound
  refine ⟨found, hagrees, ?_⟩
  rw [import?, if_neg (by simpa using hempty), if_neg (by simpa using hpoint), Action.runFrom_bind]
  cases hp : (importParts (partsOf name)).runFrom s with
  | mk result t =>
    rw [hp] at hrun
    cases hrun
    cases found with
    | found m => rfl
    | absent => rfl
    | failed kind message missing =>
      dsimp only [Import.ending]
      split <;> rfl

/-- The file of the module of a name, if the module is there and has one. -/
def located? (w : World) (name : String) (directory : Option Path) : Option (Option Path) :=
  match directory.bind (findFile w name) with
  | some file => some (some file)
  | none => (place? w (partsOf name)).map Prod.fst

/-- What is raised by the module of a name, or by a parent that is imported for it. -/
def loadError? (w : World) (name : String) (directory : Option Path) : Option Raised :=
  match directory.bind (findFile w name) with
  | some file => (execution w file).raised?
  | none => importError? w (partsOf name)

/-- Whether the module of a name, or a parent of it, is missing by what an import raises. -/
def disowned (w : World) (name : String) (directory : Option Path) : Bool :=
  (directory.bind (findFile w name)).isNone &&
    ((importError? w (partsOf name)).bind Raised.missing).any fun missing => coversName missing name

/-- How the load of a name ends. -/
structure Ends (w : World) (name : String) (directory : Option Path) (result : Except Failure (Option Module)) :
    Prop where
  /-- No module is given when there is none, or when its error says so. -/
  absent : result = .ok none ↔ located? w name directory = none ∧ loadError? w name directory = none ∨
    disowned w name directory = true
  /-- Every other error is raised as it is. -/
  raised : ∀ e, loadError? w name directory = some e → disowned w name directory = false →
    result = .error (.raised e.kind e.message)
  /-- A module that is there and raises nothing is loaded from its file. -/
  loaded : ∀ file, located? w name directory = some file → loadError? w name directory = none →
    ∃ m, result = .ok (some m) ∧ m.file = file

/-- A file in a directory is all that matters, even if it calls itself missing. -/
theorem ends_of_file {path p : Path} (hfile : directory.bind (findFile w name) = some path)
    (hp : w.resolve path = .ok p) (hpy : Text.endsWith path.name ".py" = true) :
    Ends w name directory ((loaded w name path).map fun v => some ⟨v, some path⟩) := by
  have hnot : disowned w name directory = false := by rw [disowned, hfile]; rfl
  have hlocated : located? w name directory = some (some path) := by rw [located?, hfile]
  have herror : loadError? w name directory = (execution w path).raised? := by rw [loadError?, hfile]
  have hloaded : loaded w name path = match execution w path with
      | .raises kind message _ => .error (.raised kind message)
      | .defines members => .ok (.object (.moduleNamed (keyOf name p)) members) := by
    rw [loaded, key_eq_ok.mpr ⟨p, hp, rfl⟩, hpy]
    rfl
  rw [hloaded]
  cases hx : execution w path with
  | raises kind message missing =>
    rw [hx] at herror
    refine ⟨?_, fun e he _ => ?_, fun file _ hnone => ?_⟩
    · simp [hlocated, herror, Execution.raised?, hnot, Except.map]
    · cases herror.symm.trans he
      rfl
    · cases herror.symm.trans hnone
  | defines members =>
    rw [hx] at herror
    refine ⟨?_, fun e he _ => ?_, fun file hsome _ => ?_⟩
    · simp [hlocated, hnot, Except.map]
    · cases herror.symm.trans he
    · cases hlocated.symm.trans hsome
      exact ⟨_, rfl, rfl⟩

/-- Where there is no file in a directory the load ends as the import does. -/
theorem ends_of_import {found : Import} (hfile : directory.bind (findFile w name) = none)
    (h : found.Agrees w (partsOf name)) : Ends w name directory (found.ending name) := by
  have hlocated : located? w name directory = (place? w (partsOf name)).map Prod.fst := by rw [located?, hfile]
  have herror : loadError? w name directory = importError? w (partsOf name) := by rw [loadError?, hfile]
  have hdisowned : disowned w name directory =
      ((importError? w (partsOf name)).bind Raised.missing).any fun missing => coversName missing name := by
    rw [disowned, hfile]
    rfl
  cases found with
  | found m =>
    obtain ⟨he, hp⟩ := h
    rw [he] at herror hdisowned
    rw [hp] at hlocated
    refine ⟨?_, fun e hsome _ => ?_, fun file hsome _ => ?_⟩
    · simp [Import.ending, hlocated, hdisowned]
    · cases herror.symm.trans hsome
    · cases hlocated.symm.trans hsome
      exact ⟨_, rfl, rfl⟩
  | absent =>
    obtain ⟨he, hp⟩ := h
    rw [he] at herror hdisowned
    rw [hp] at hlocated
    refine ⟨?_, fun e hsome _ => ?_, fun file hsome _ => ?_⟩
    · exact iff_of_true rfl (.inl ⟨hlocated, herror⟩)
    · cases herror.symm.trans hsome
    · cases hlocated.symm.trans hsome
  | failed kind message missing =>
    have he : importError? w (partsOf name) = some ⟨kind, message, missing⟩ := h
    rw [he] at herror hdisowned
    rw [Option.bind_some] at hdisowned
    rw [Import.ending, ← hdisowned]
    refine ⟨?_, fun e hsome hnot => ?_, fun file _ hnone => ?_⟩
    · simp [herror]
    · cases herror.symm.trans hsome
      rw [hnot, if_neg Bool.false_ne_true]
    · cases herror.symm.trans hnone

/-- The load of a name whose parts are not empty ends as it can be told from the world,
in every session that is true to it. -/
theorem load?_ends (hw : w.Named) (hs : s.Coherent r w) (hn : ∀ part ∈ Text.fields '.' name, part ≠ "")
    (directory : Option Path) : Ends w name directory ((load? name directory).runFrom s).1 := by
  rw [load?, Action.runFrom_bind, Action.runFrom_world, hs.world]
  cases hfile : directory.bind (findFile w name) with
  | none =>
    obtain ⟨found, hagrees, hrun⟩ := import?_agrees hs hn
    simp only [hfile, hrun]
    exact ends_of_import hfile hagrees
  | some path =>
    obtain ⟨d, -, hd⟩ := Option.bind_eq_some_iff.mp hfile
    obtain ⟨hf, hkeeps⟩ := findFile_some hd
    obtain ⟨p, hp⟩ := hw.exists_resolve (hw.hasNul_of_isFile hf)
    have hends := ends_of_file hfile hp (endsWith_of_findFile hd)
    obtain ⟨ht, -⟩ := Settled.debug Source.modules ("Loading module '" ++ name ++ "' from " ++ path.text) s hs
    rw [Action.runFrom_debug] at ht
    rw [← fromFile_coherent ht name hf hkeeps] at hends
    simp only [hfile, Action.runFrom_bind, Action.runFrom_debug]
    generalize (fromFile name path).runFrom _ = run at hends ⊢
    obtain ⟨result, t⟩ := run
    cases result <;> exact hends

/-! Modules below a directory of the import path: a package with one that fails, and one
that calls itself missing. -/

def libWorld : World where
  here := ["work"]
  entries := [
    (["work", "lib", "pkg", "__init__.py"], .script (.defines [])),
    (["work", "lib", "pkg", "broken.py"], .script (.raises "ValueError" "broken" none)),
    (["work", "lib", "plug.py"], .script (.raises "ModuleNotFoundError" "No module named 'plug'" (some "plug")))]
  importPath := [⟨"/", ["work", "lib"]⟩]

def libResolver : Resolver := ⟨libWorld.directory, libWorld.directory⟩

theorem named_libWorld : libWorld.Named where
  here := by decide
  entries := by
    intro e he
    simp only [libWorld, List.mem_cons, List.not_mem_nil, or_false] at he
    rcases he with rfl | rfl | rfl <;> decide

/-- How a load ends before anything else is loaded. -/
def libEnding (name : String) (directory : Path) : Except Failure (Option Module) :=
  ((load? name (some directory)).runFrom (Session.start libWorld)).1

theorem load?_ends_libWorld : libWorld.Named ∧ (Session.start libWorld).Coherent libResolver libWorld ∧
    (∀ name ∈ ["pkg", "pkg.broken", "pkg.gone"], ∀ part ∈ Text.fields '.' name, part ≠ "") ∧
    (∃ m, libEnding "pkg" libWorld.directory = .ok (some m) ∧
      m.file = some ⟨"/", ["work", "lib", "pkg", "__init__.py"]⟩) ∧
    libEnding "pkg.broken" libWorld.directory = .error (.raised "ValueError" "broken") ∧
    libEnding "pkg.gone" libWorld.directory = .ok none := by
  have hs := Session.coherent_start libResolver libWorld
  have hn : ∀ name ∈ ["pkg", "pkg.broken", "pkg.gone"], ∀ part ∈ Text.fields '.' name, part ≠ "" := by decide
  have ends : ∀ name ∈ ["pkg", "pkg.broken", "pkg.gone"],
      Ends libWorld name (some libWorld.directory) (libEnding name libWorld.directory) :=
    fun name hname => load?_ends named_libWorld hs (hn name hname) (some libWorld.directory)
  refine ⟨named_libWorld, hs, hn, ?_, ?_, ?_⟩
  · exact (ends "pkg" (by decide)).loaded _ (by decide +kernel) (by decide +kernel)
  · exact (ends "pkg.broken" (by decide)).raised ⟨"ValueError", "broken", none⟩ (by decide +kernel) (by decide +kernel)
  · exact (ends "pkg.gone" (by decide)).absent.mpr (.inl ⟨by decide +kernel, by decide +kernel⟩)

/-- A module that exists is taken to be missing when it is imported by its name, and its
error is raised when the same file is found in the directory. -/
theorem existing_module_disowned :
    located? libWorld "plug" (some libWorld.directory) = some (some ⟨"/", ["work", "lib", "plug.py"]⟩) ∧
    loadError? libWorld "plug" (some libWorld.directory) =
      some ⟨"ModuleNotFoundError", "No module named 'plug'", some "plug"⟩ ∧
    libEnding "plug" libWorld.directory = .ok none ∧
    libEnding "plug" ⟨"/", ["work", "lib"]⟩ = .error (.raised "ModuleNotFoundError" "No module named 'plug'") := by
  refine ⟨by decide +kernel, by decide +kernel, rfl, rfl⟩

end Module

end Cascade
