import Mathlib.Data.List.Basic
import Cascade.Proofs.Agreement
import Cascade.Proofs.ModuleFile
import Cascade.Proofs.World
import Cascade.Resolution

/-! # Sessions that are true to a world

What a session has loaded is what loading it again would give. In such a session
modules are loaded as they are from the start, and the session stays like that.
The modules of the world have to be apart for this. The keys of module files have
to tell the files apart, or else a file could be taken for another one that was
loaded before, and no module may take the place of a member of another one when it
is imported. -/
namespace Cascade

/-- How an action ends that is the first one in a world. -/
def Action.outcome {α : Type} (w : World) (a : Action α) : Except Failure α :=
  (a.runFrom (Session.start w)).1

/-- The names of the members that modules are asked for. -/
def Resolution.memberNames : List String := "plugin" :: "config" :: pluginMembers

/-- Two files have a key in common only if they are the same file, and no module
that can be imported is below another one under the name of a member. -/
structure World.ModulesApart (w : World) : Prop where
  keys : ∀ name name' p p' key, w.isFile p = true → w.isFile p' = true →
    Module.key w name p = .ok key → Module.key w name' p' = .ok key → w.resolve p = w.resolve p'
  members : ∀ module, ∀ name ∈ Resolution.memberNames, ∀ m,
    w.available.lookup (module ++ "." ++ name) = none →
    (Module.importParts (Text.fields '.' (module ++ "." ++ name)).reverse).outcome w ≠ .ok (.found m)

/-- Whatever the session holds is what loading it in its world gives. -/
structure Session.Coherent (r : Resolver) (w : World) (s : Session) : Prop where
  world : s.world = w
  registry : ∀ key v, s.registry.lookup key = some v → ∀ name p, w.isFile p = true → p.KeepsName →
    Module.key w name p = .ok key → (Module.fromFile name p).outcome w = .ok v
  imported : ∀ name m, s.imported.lookup name = some m →
    (Module.importParts (Text.fields '.' name).reverse).outcome w = .ok (.found m)
  available : ∀ name, s.imported.lookup name = none → (Session.start w).imported.lookup name = none
  plugins : ∀ package definition file, s.plugins.lookup package = some (definition, file) →
    ∃ m : Module, (Module.load? (Package.moduleName package) (some r.pluginBase)).outcome w = .ok (some m) ∧
      definition = Resolution.pluginDefinition (Session.start w) m.value ∧ file = m.file

/-- In every coherent session an action ends as it does from the start. -/
def Settled {α : Type} (r : Resolver) (w : World) (a : Action α) : Prop :=
  ∀ s, s.Coherent r w → (a.runFrom s).2.Coherent r w ∧ (a.runFrom s).1 = a.outcome w

/-- Two sessions of which each is coherent. -/
def CoherentPair (r : Resolver) (w : World) (s t : Session) : Prop := s.Coherent r w ∧ t.Coherent r w

namespace Settled

variable {α β : Type} {r : Resolver} {w : World} {a : Action α}

theorem agrees (h : Settled r w a) (same : Prop) : Agrees (CoherentPair r w) same a a Eq := by
  rintro s t ⟨hs, ht⟩
  obtain ⟨hs', hr⟩ := h s hs
  obtain ⟨ht', hr'⟩ := h t ht
  refine ⟨⟨hs', ht'⟩, ?_⟩
  rw [hr, hr']
  exact .refl (fun _ _ => rfl) fun _ _ => rfl

theorem pure (x : α) : Settled r w (Pure.pure x) := fun _ hs => ⟨hs, rfl⟩

theorem throw (e : Failure) : Settled r w (throw e : Action α) := fun _ hs => ⟨hs, rfl⟩

theorem world : Settled r w Action.world := fun _ hs => ⟨hs, congrArg Except.ok hs.world⟩

theorem shared : Settled r w Action.shared :=
  fun _ hs => ⟨hs, congrArg (Except.ok ∘ World.shared) hs.world⟩

theorem debug (source : Source) (message : String) : Settled r w (Action.debug source message) :=
  fun _ hs => ⟨⟨hs.world, hs.registry, hs.imported, hs.available, hs.plugins⟩, rfl⟩

theorem ofFault (x : Except Fault α) : Settled r w (Action.ofFault x) := fun _ hs => ⟨hs, rfl⟩

theorem ofProblem (x : Except Problem α) : Settled r w (Action.ofProblem x) := fun _ hs => ⟨hs, rfl⟩

end Settled

namespace Module

variable {r : Resolver} {w : World}

/-! ## Modules in files -/

theorem fromFile_outcome (name : String) (path : Path) :
    (fromFile name path).outcome w = loaded w name path := by
  cases hp : w.resolve path with
  | error e => rw [Action.outcome, fromFile_unresolved (s := Session.start w) hp]; rfl
  | ok p => rw [Action.outcome, fromFile_new (s := Session.start w) hp rfl]; rfl

theorem resolve_of_key {name key : String} {p : Path} (h : Module.key w name p = .ok key) :
    ∃ q, w.resolve p = .ok q := by
  cases hr : w.resolve p with
  | ok q => exact ⟨q, rfl⟩
  | error e => rw [Module.key, hr] at h; cases h

/-- A file that is loaded under a key gives the same as every file of that key. -/
theorem loaded_eq (hw : w.ModulesApart) {name name' key : String} {p p' : Path} (hp : w.isFile p = true)
    (hp' : w.isFile p' = true) (hn : p.KeepsName) (hn' : p'.KeepsName) (hk : Module.key w name p = .ok key)
    (hk' : Module.key w name' p' = .ok key) {v : Value} (h : loaded w name p = .ok v) :
    loaded w name' p' = .ok v := by
  have hresolve := hw.keys name name' p p' key hp hp' hk hk'
  obtain ⟨q, hq⟩ := resolve_of_key hk
  have hq' := hresolve ▸ hq
  have hname : p'.name = p.name := by rw [← hn _ _ hq, hn' _ _ hq']
  have hfind : w.find? p' = w.find? p := (World.find?_eq_of_resolve_eq hp hp' hq hq').symm
  rw [loaded, hk] at h
  rw [loaded, hk', hname, execution, hfind]
  simp only [mapError_ok, ok_bind] at h ⊢
  by_cases he : (!Text.endsWith p.name ".py") = true
  · rw [if_pos he] at h
    cases h
  · rw [if_neg he] at h ⊢
    exact h

/-- In a coherent session a file gives what it gives that has not been loaded. -/
theorem fromFile_coherent {s : Session} (hs : s.Coherent r w) (name : String) {path : Path}
    (hp : w.isFile path = true) (hn : path.KeepsName) :
    ((fromFile name path).runFrom s).1 = loaded w name path := by
  cases hq : w.resolve path with
  | error e => rw [fromFile_unresolved (by rw [hs.world, hq]), hs.world]
  | ok q =>
    have hresolve : s.world.resolve path = .ok q := by rw [hs.world, hq]
    cases hl : s.registry.lookup (keyOf name q) with
    | some v =>
      have hk : Module.key w name path = .ok (keyOf name q) := key_eq_ok.mpr ⟨q, hq, rfl⟩
      rw [fromFile_registered hresolve hl, ← hs.registry _ v hl name path hp hn hk, fromFile_outcome]
    | none => rw [fromFile_new hresolve hl, hs.world]

theorem fromFile_settled (hw : w.ModulesApart) (name : String) {path : Path} (hp : w.isFile path = true)
    (hn : path.KeepsName) : Settled r w (fromFile name path) := by
  intro s hs
  refine ⟨?_, (fromFile_coherent hs name hp hn).trans (fromFile_outcome name path).symm⟩
  cases hq : w.resolve path with
  | error e =>
    rw [fromFile_unresolved (by rw [hs.world, hq])]
    exact hs
  | ok q =>
    have hresolve : s.world.resolve path = .ok q := by rw [hs.world, hq]
    have hk : Module.key w name path = .ok (keyOf name q) := key_eq_ok.mpr ⟨q, hq, rfl⟩
    cases hl : s.registry.lookup (keyOf name q) with
    | some v =>
      rw [fromFile_registered hresolve hl]
      exact hs
    | none =>
      rw [fromFile_new hresolve hl, hs.world]
      refine ⟨rfl, ?_, hs.imported, hs.available, hs.plugins⟩
      -- the new entry of the registry is what every file of its key gives
      intro key' v' hv' name' p' hp' hn' hk'
      cases hload : loaded w name path with
      | error e =>
        rw [hload] at hv'
        exact hs.registry key' v' hv' name' p' hp' hn' hk'
      | ok v =>
        rw [hload] at hv'
        simp only [Except.toOption, Option.map_some, Option.toList_some, List.singleton_append,
          List.lookup_cons] at hv'
        split at hv'
        · rename_i heq
          cases eq_of_beq heq
          cases hv'
          rw [fromFile_outcome]
          exact loaded_eq hw hp hp' hn hn' hk hk' hload
        · exact hs.registry key' v' hv' name' p' hp' hn' hk'

/-! ## Modules by name -/

/-- What directories have under a name, before it is remembered. -/
def imported (w : World) (name last : String) (directories : List Path) : Import :=
  match choose (directories.filterMap (placeIn? w last)) [] with
  | none => .absent
  | some (none, below) => .found ⟨.object (.moduleNamed name) [], none, below⟩
  | some (some file, below) => match execution w file with
    | .raises kind message missing => .failed kind message missing
    | .defines members => .found ⟨.object (.moduleNamed name) members, some file, below⟩

/-- The modules remembered after an import of a name. -/
def Import.remembered (name : String) : Import → List (String × Imported)
  | .found m => [(name, m)]
  | _ => []

theorem importIn_run (name last : String) (directories : List Path) {s : Session} (hs : s.world = w) :
    ((importIn name last directories).runFrom s).1 = .ok (imported w name last directories) ∧
    ∃ runs, ((importIn name last directories).runFrom s).2 = { s with
      runs := runs
      imported := (imported w name last directories).remembered name ++ s.imported } := by
  subst hs
  unfold importIn imported
  simp only [Action.runFrom_bind, Action.runFrom_world]
  cases choose (directories.filterMap (placeIn? s.world last)) [] with
  | none => exact ⟨rfl, s.runs, rfl⟩
  | some place =>
    obtain ⟨file, below⟩ := place
    cases file with
    | none => exact ⟨rfl, s.runs, rfl⟩
    | some file =>
      simp only [Action.runFrom_bind, noteRun, Action.runFrom_modify]
      cases execution s.world file with
      | raises kind message missing => exact ⟨rfl, _, rfl⟩
      | defines members => exact ⟨rfl, _, rfl⟩

/-- The full name of a module from its parts, the last one first. -/
abbrev fullName (parts : List String) : String := String.intercalate "." parts.reverse

theorem fullName_cons {last : String} {parents : List String} (hp : parents ≠ []) :
    fullName (last :: parents) = fullName parents ++ "." ++ last := by
  rw [fullName, List.reverse_cons, String.intercalate_append_of_ne_nil (by simpa using hp) (by simp),
    String.intercalate_singleton]

theorem fullName_lt (last : String) {parents : List String} (hp : parents ≠ []) :
    (fullName parents).length < (fullName (last :: parents)).length := by
  have hdot : ".".length = 1 := rfl
  rw [fullName_cons hp]
  simp only [String.length_append]
  omega

theorem fullName_fields (name : String) : fullName (Text.fields '.' name).reverse = name := by
  rw [fullName, List.reverse_reverse, Text.intercalate_fields]

theorem fields_fullName {parts : List String} (hp : parts ≠ []) (hd : ∀ part ∈ parts, '.' ∉ part.toList) :
    (Text.fields '.' (fullName parts)).reverse = parts := by
  rw [fullName, Text.fields_intercalate (by simpa using hp) fun part hmem => hd part (List.mem_reverse.mp hmem),
    List.reverse_reverse]

theorem lookup_remembered {name other : String} (ho : other ≠ name) (i : Import)
    (rest : List (String × Imported)) :
    (i.remembered name ++ rest).lookup other = rest.lookup other := by
  cases i with
  | found m => simp [Import.remembered, List.lookup_cons, beq_eq_false_iff_ne.mpr ho]
  | _ => rfl

theorem importIn_longer {name other : String} (ho : name.length < other.length) (last : String)
    (directories : List Path) (s : Session) :
    ((importIn name last directories).runFrom s).2.imported.lookup other = s.imported.lookup other := by
  obtain ⟨-, runs, hr⟩ := importIn_run name last directories (s := s) rfl
  rw [hr]
  exact lookup_remembered (by rintro rfl; omega) _ _

theorem importBelow_longer {name last other : String} (ho : name.length < other.length) (i : Import)
    (s : Session) :
    ((importBelow name last i).runFrom s).2.imported.lookup other = s.imported.lookup other := by
  cases i with
  | found parent =>
    unfold importBelow
    simp only [Action.runFrom_bind, Action.runFrom_get]
    split
    · rfl
    · exact importIn_longer ho _ _ s
    · rfl
  | absent => rfl
  | failed kind message missing => rfl

/-- An import of a name leaves longer names as they are. -/
theorem importParts_longer (parts : List String) {other : String}
    (ho : (fullName parts).length < other.length) (s : Session) :
    ((importParts parts).runFrom s).2.imported.lookup other = s.imported.lookup other := by
  induction parts generalizing s with
  | nil => rfl
  | cons last parents ih =>
    unfold importParts
    simp only [Action.runFrom_bind, Action.runFrom_get]
    split
    · rfl
    · split
      · simp only [Action.runFrom_bind, Action.runFrom_world]
        exact importIn_longer ho _ _ s
      · rename_i hne
        have ih := ih (Nat.lt_trans (fullName_lt _ (by simpa using hne)) ho) s
        rw [Action.runFrom_bind]
        cases hp : (importParts parents).runFrom s with
        | mk result t =>
          rw [hp] at ih
          cases result with
          | error e => exact ih
          | ok found => exact (importBelow_longer ho found t).trans ih

/-- Remembering what an import found keeps a session coherent. -/
theorem coherent_remembered {name : String} {i : Import} {s : Session} {runs : List Path}
    (hs : s.Coherent r w)
    (hi : (importParts (Text.fields '.' name).reverse).outcome w = .ok i) :
    ({ s with runs := runs, imported := i.remembered name ++ s.imported } : Session).Coherent r w := by
  cases i with
  | found m =>
    refine ⟨hs.world, hs.registry, ?_, ?_, hs.plugins⟩
    · intro other m' hm'
      simp only [Import.remembered, List.singleton_append, List.lookup_cons] at hm'
      split at hm'
      · rename_i heq
        cases eq_of_beq heq
        cases hm'
        exact hi
      · exact hs.imported other m' hm'
    · intro other ho
      simp only [Import.remembered, List.singleton_append, List.lookup_cons] at ho
      split at ho
      · cases ho
      · exact hs.available other ho
  | _ => exact ⟨hs.world, hs.registry, hs.imported, hs.available, hs.plugins⟩

theorem importParts_remembered {parts : List String} (hp : parts ≠ []) {s : Session} {m : Imported}
    (hl : s.imported.lookup (fullName parts) = some m) :
    (importParts parts).runFrom s = (.ok (.found m), s) := by
  cases parts with
  | nil => exact absurd rfl hp
  | cons last parents =>
    rw [importParts]
    simp only [Action.runFrom_bind, Action.runFrom_get, hl]
    rfl

/-- A name that is not remembered is looked for in the directories of its parent. -/
theorem importParts_run {last : String} {parents : List String} {s : Session}
    (hl : s.imported.lookup (fullName (last :: parents)) = none) :
    (importParts (last :: parents)).runFrom s = (if parents.isEmpty then
      importIn (fullName (last :: parents)) last s.world.importPath
      else do importBelow (fullName (last :: parents)) last (← importParts parents)).runFrom s := by
  rw [importParts]
  simp only [Action.runFrom_bind, Action.runFrom_get, hl]
  split
  · simp only [Action.runFrom_bind, Action.runFrom_world]
  · rfl

/-- What the import of a name gives that is not remembered. -/
def searched (w : World) (last : String) (parents : List String) : Except Failure Import :=
  if parents.isEmpty then .ok (imported w (fullName (last :: parents)) last w.importPath)
  else (importParts parents).outcome w >>= fun
    | .found parent => match parent.below with
      | some directories => .ok (imported w (fullName (last :: parents)) last directories)
      | none => .ok .absent
    | other => .ok other

/-- Looking for a module in the directories where it belongs. -/
theorem importIn_searched {last : String} {parents : List String}
    (hfields : (Text.fields '.' (fullName (last :: parents))).reverse = last :: parents) {directories : List Path}
    {s : Session} (hs : s.Coherent r w)
    (hsearched : searched w last parents = .ok (imported w (fullName (last :: parents)) last directories)) :
    ((importIn (fullName (last :: parents)) last directories).runFrom s).1 = searched w last parents ∧
    ((importParts (last :: parents)).outcome w = searched w last parents →
      ((importIn (fullName (last :: parents)) last directories).runFrom s).2.Coherent r w) := by
  obtain ⟨hr, runs, hp⟩ := importIn_run (fullName (last :: parents)) last directories hs.world
  refine ⟨hr.trans hsearched.symm, fun hout => ?_⟩
  rw [hp]
  refine coherent_remembered hs ?_
  rw [hfields, hout, hsearched]

/-- What is not remembered is found by a search, after which the session is coherent if
the search gives what the import gives from the start. -/
theorem importParts_missing {last : String} {parents : List String}
    (hfields : (Text.fields '.' (fullName (last :: parents))).reverse = last :: parents)
    (hparents : Settled r w (importParts parents)) {s : Session} (hs : s.Coherent r w)
    (hl : s.imported.lookup (fullName (last :: parents)) = none) :
    ((importParts (last :: parents)).runFrom s).1 = searched w last parents ∧
    ((importParts (last :: parents)).outcome w = searched w last parents →
      ((importParts (last :: parents)).runFrom s).2.Coherent r w) := by
  rw [importParts_run hl, hs.world]
  by_cases he : parents.isEmpty = true
  · rw [if_pos he]
    exact importIn_searched hfields hs (by rw [searched, if_pos he])
  rw [if_neg he, Action.runFrom_bind]
  obtain ⟨ht, hr⟩ := hparents s hs
  -- the import of the parents does not remember the module itself, whose name is longer
  have hkept := importParts_longer parents (fullName_lt last (by simpa using he)) s
  cases hp : (importParts parents).runFrom s with
  | mk result t =>
    rw [hp] at ht hr hkept
    have hsearched : searched w last parents = result >>= fun
        | .found parent => match parent.below with
          | some directories => .ok (imported w (fullName (last :: parents)) last directories)
          | none => .ok .absent
        | other => .ok other := by
      rw [searched, if_neg he, ← hr]
    cases result with
    | error e => exact ⟨hsearched.symm, fun _ => ht⟩
    | ok found =>
      cases found with
      | found parent =>
        simp only [importBelow, Action.runFrom_bind, Action.runFrom_get, hkept, hl]
        cases hb : parent.below with
        | some directories =>
          refine importIn_searched hfields ht ?_
          rw [hsearched]
          simp only [ok_bind, hb]
        | none =>
          refine ⟨?_, fun _ => ht⟩
          rw [hsearched]
          simp only [ok_bind, hb]
          rfl
      | absent => exact ⟨hsearched.symm, fun _ => ht⟩
      | failed kind message missing => exact ⟨hsearched.symm, fun _ => ht⟩

/-- When there are no directories to look in, only what is remembered is found. -/
theorem importParts_nowhere {parts : List String} (hp : parts ≠ []) {s : Session}
    (hs : s.world.importPath = []) (hbelow : ∀ e ∈ s.imported, e.2.below = none) :
    (importParts parts).runFrom s =
      (.ok ((s.imported.lookup (fullName parts)).elim .absent .found), s) := by
  induction parts with
  | nil => exact absurd rfl hp
  | cons last parents ih =>
    cases hl : s.imported.lookup (fullName (last :: parents)) with
    | some m => exact importParts_remembered hp hl
    | none =>
      rw [importParts_run hl]
      by_cases he : parents.isEmpty = true
      · rw [if_pos he, hs]
        rfl
      · rw [if_neg he, Action.runFrom_bind, ih (by simpa using he)]
        cases hparent : s.imported.lookup (fullName parents) with
        | none => rfl
        | some m =>
          have hnone : m.below = none := hbelow (fullName parents, m) (mem_of_lookup hparent)
          simp only [Option.elim_some, importBelow, Action.runFrom_bind, Action.runFrom_get, hl, hnone]
          rfl

end Module

/-- At the start the modules are imported that are there without a file. -/
theorem Session.lookup_start (w : World) (name : String) : (Session.start w).imported.lookup name =
    (w.available.lookup name).map fun members => ⟨.object (.moduleNamed name) members, none, none⟩ := by
  rw [Session.start]
  induction w.available with
  | nil => rfl
  | cons first rest ih =>
    rw [List.map_cons, List.lookup_cons, List.lookup_cons, ih]
    split
    · rename_i heq
      rw [eq_of_beq heq, Option.map_some]
    · rfl

/-- Modules of a world are apart when there are no files of modules and no
directories to import from. -/
theorem World.modulesApart_of_importPath {w : World} (hp : w.importPath = [])
    (hkeys : ∀ name name' p p' key, w.isFile p = true → w.isFile p' = true →
      Module.key w name p = .ok key → Module.key w name' p' = .ok key → w.resolve p = w.resolve p') :
    w.ModulesApart where
  keys := hkeys
  members := by
    intro module name _ m ha hfound
    rw [Action.outcome, Module.importParts_nowhere (by simp) hp ?_, Module.fullName_fields, Session.lookup_start,
      ha] at hfound
    · cases hfound
    · intro e he
      obtain ⟨_, -, rfl⟩ := List.mem_map.mp he
      rfl

theorem Session.coherent_start (r : Resolver) (w : World) : (Session.start w).Coherent r w where
  world := rfl
  registry := by simp [Session.start]
  imported := by
    intro name m hm
    rw [Action.outcome, Module.importParts_remembered (by simp) (by rwa [Module.fullName_fields])]
  available := fun _ h => h
  plugins := by simp [Session.start]

/-! ## Members of modules -/

namespace Session.Coherent

variable {r : Resolver} {w : World} {s : Session}

theorem submodule?_eq_none (hw : w.ModulesApart) (hs : s.Coherent r w) {name : String}
    (hn : name ∈ Resolution.memberNames) (module : String) : s.submodule? module name = none := by
  unfold submodule?
  dsimp only
  rw [hs.world]
  split
  · rfl
  · rename_i ha
    cases hl : s.imported.lookup (module ++ "." ++ name) with
    | none => rfl
    | some m => exact absurd (hs.imported _ m hl) (hw.members module name hn m (Option.not_isSome_iff_eq_none.mp ha))

/-- Modules have the same members in all coherent sessions. -/
theorem attribute?_eq (hw : w.ModulesApart) (hs : s.Coherent r w) {name : String}
    (hn : name ∈ Resolution.memberNames) (v : Value) :
    Resolution.attribute? s v name = Resolution.attribute? (Session.start w) v name := by
  unfold Resolution.attribute?
  rw [hs.world, show (Session.start w).world = w from rfl]
  split
  · rw [hs.submodule?_eq_none hw hn, (Session.coherent_start r w).submodule?_eq_none hw hn]
  · rfl
  · rfl

theorem pluginDefinition_eq (hw : w.ModulesApart) (hs : s.Coherent r w) (module : Value) :
    Resolution.pluginDefinition s module = Resolution.pluginDefinition (Session.start w) module := by
  have hsource : Resolution.pluginSource s module = Resolution.pluginSource (Session.start w) module := by
    rw [Resolution.pluginSource, Resolution.pluginSource, hs.attribute?_eq hw (by decide)]
  have hmembers : ∀ v, (Resolution.pluginMembers.filterMap fun n =>
      (Resolution.attribute? s v n).map (Value.str n, ·)) = Resolution.pluginMembers.filterMap fun n =>
        (Resolution.attribute? (Session.start w) v n).map (Value.str n, ·) := by
    exact fun v => List.filterMap_congr fun n hn => by
      rw [hs.attribute?_eq hw (List.mem_cons_of_mem _ (List.mem_cons_of_mem _ hn))]
  rw [Resolution.pluginDefinition, Resolution.pluginDefinition, hsource, hmembers, hs.world]
  rfl

end Session.Coherent

namespace Settled

variable {α β : Type} {r : Resolver} {w : World} {a : Action α} {f : α → Action β}

/-- The second part of an action ends as it does from the start. -/
theorem outcome_bind (h : Settled r w a) (hf : ∀ x, a.outcome w = .ok x → Settled r w (f x)) :
    (a >>= f).outcome w = a.outcome w >>= fun x => (f x).outcome w := by
  obtain ⟨ht, -⟩ := h _ (Session.coherent_start r w)
  unfold Action.outcome at hf ⊢
  rw [Action.runFrom_bind]
  cases ha : a.runFrom (Session.start w) with
  | mk x t =>
    rw [ha] at ht hf
    cases x with
    | ok x => exact (hf x rfl t ht).2
    | error e => rfl

theorem bind (h : Settled r w a) (hf : ∀ x, a.outcome w = .ok x → Settled r w (f x)) :
    Settled r w (a >>= f) := by
  intro s hs
  obtain ⟨ht, hr⟩ := h s hs
  rw [h.outcome_bind hf, Action.runFrom_bind]
  cases ha : a.runFrom s with
  | mk x t =>
    rw [ha] at ht hr
    rw [← hr]
    cases x with
    | ok x => exact hf x hr.symm t ht
    | error e => exact ⟨ht, rfl⟩

theorem mapM {l : List α} (h : ∀ x ∈ l, Settled r w (f x)) : Settled r w (l.mapM f) := by
  induction l with
  | nil => exact .pure []
  | cons x rest ih =>
    rw [List.mapM_cons]
    refine (h x (by simp)).bind fun y _ => ?_
    exact (ih fun x hx => h x (List.mem_cons_of_mem _ hx)).bind fun ys _ => .pure _

theorem outcome_mapM {l : List α} (h : ∀ x ∈ l, Settled r w (f x)) :
    (l.mapM f).outcome w = l.mapM fun x => (f x).outcome w := by
  induction l with
  | nil => rfl
  | cons x rest ih =>
    have hrest : ∀ x ∈ rest, Settled r w (f x) := fun x hx => h x (List.mem_cons_of_mem _ hx)
    have htail : ∀ y : β, (do return y :: (← rest.mapM f) : Action (List β)).outcome w =
        (rest.mapM f).outcome w >>= fun ys => Pure.pure (y :: ys) :=
      fun y => (Settled.mapM hrest).outcome_bind fun ys _ => .pure _
    rw [List.mapM_cons, List.mapM_cons,
      (h x (by simp)).outcome_bind fun y _ => (Settled.mapM hrest).bind fun ys _ => .pure _]
    simp only [htail, ih hrest]

end Settled

namespace Module

variable {r : Resolver} {w : World}

theorem importParts_settled {parts : List String} (hd : ∀ part ∈ parts, '.' ∉ part.toList) :
    Settled r w (importParts parts) := by
  induction parts with
  | nil => exact fun s hs => ⟨hs, rfl⟩
  | cons last parents ih =>
    have ih := ih fun part hp => hd part (List.mem_cons_of_mem _ hp)
    have hfields := fields_fullName (List.cons_ne_nil last parents) hd
    intro s hs
    cases hl : s.imported.lookup (fullName (last :: parents)) with
    | some m =>
      rw [importParts_remembered (by simp) hl]
      refine ⟨hs, ?_⟩
      rw [← hfields, hs.imported _ m hl]
    | none =>
      have hstart := hs.available _ hl
      have hout := (importParts_missing hfields ih (Session.coherent_start r w) hstart).1
      obtain ⟨hr, hcoherent⟩ := importParts_missing hfields ih hs hl
      exact ⟨hcoherent hout, hr.trans hout.symm⟩

theorem import?_settled (name : String) : Settled r w (import? name) := by
  unfold import?
  split
  · exact .throw _
  split
  · exact .throw _
  refine (importParts_settled fun part hp => ?_).bind fun found _ => ?_
  · exact Text.not_mem_of_mem_fields (List.mem_reverse.mp hp)
  cases found with
  | found m => exact .pure _
  | absent => exact .pure _
  | failed kind message missing =>
    dsimp only
    split
    · exact .pure _
    · exact .throw _

/-! ## Loading -/

theorem findFile_some {name : String} {directory path : Path} (h : findFile w name directory = some path) :
    w.isFile path = true ∧ path.KeepsName := by
  simp only [findFile] at h
  split at h
  · rename_i hf
    cases h
    exact ⟨hf, Path.keepsName_child_module _ _⟩
  · split at h
    · rename_i hf
      cases h
      exact ⟨hf, Path.keepsName_child_packageFile _⟩
    · cases h

theorem endsWith_packageFile (p : Path) : Text.endsWith (p.child packageFile).name ".py" = true := by
  have hchild : p.child packageFile = ⟨p.root, p.names ++ ["__init__.py"]⟩ := Path.child_packageFile p
  rw [hchild, Path.name, List.getLast?_concat]
  rfl

theorem endsWith_of_findFile {name : String} {directory path : Path} (h : findFile w name directory = some path) :
    Text.endsWith path.name ".py" = true := by
  simp only [findFile] at h
  split at h
  · cases h
    exact Path.endsWith_child_module _ _
  · split at h
    · cases h
      exact endsWith_packageFile _
    · cases h

theorem load?_settled (hw : w.ModulesApart) (name : String) (directory : Option Path) :
    Settled r w (load? name directory) := by
  unfold load?
  refine Settled.world.bind fun w' hw' => ?_
  obtain rfl : w = w' := Except.ok.inj hw'
  split
  · rename_i path hpath
    obtain ⟨d, -, hd⟩ := Option.bind_eq_some_iff.mp hpath
    obtain ⟨hf, hn⟩ := findFile_some hd
    refine (Settled.debug _ _).bind fun _ _ => ?_
    exact (fromFile_settled hw name hf hn).bind fun _ _ => .pure _
  · exact import?_settled name

theorem loadPath?_settled (hw : w.ModulesApart) {path : Path} (hp : path.IsResolved) :
    Settled r w (loadPath? path) := by
  unfold loadPath?
  refine Settled.world.bind fun w' hw' => ?_
  obtain rfl : w = w' := Except.ok.inj hw'
  dsimp only
  have hn : (if w.isDirectory path = true then path.child packageFile else path).KeepsName := by
    split
    · exact Path.keepsName_child_packageFile _
    · exact Path.keepsName_of_isResolved hp
  generalize (if w.isDirectory path = true then path.child packageFile else path) = p at hn
  split
  · rename_i hf
    refine (Settled.debug _ _).bind fun _ _ => ?_
    exact (fromFile_settled hw _ hf hn).bind fun _ _ => .pure _
  · exact .pure _

end Module

end Cascade
