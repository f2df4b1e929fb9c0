import Cascade.Proofs.ModuleFile
import Cascade.Proofs.Resolution.Coherence

/-! # Requests for modules

Modules are asked for one after the other, by name or by path, and some requests
fail. A file that is found is run once under each name that it is loaded under, since
the name is part of its key: the same file under another name is another module. -/
namespace Cascade.Module

/-- A request for a module, by its name and a directory to look in first, or by the
path of its file or package. -/
inductive Request where
  | named (name : String) (directory : Option Path)
  | located (path : Path)

namespace Request

def run : Request → Action (Option Module)
  | .named name directory => load? name directory
  | .located path => loadPath? path

/-- The file of a path that may be the one of a package. -/
def fileOf (w : World) (path : Path) : Path := if w.isDirectory path then path.child packageFile else path

/-- The name that a path gives a file, the one of a package from its directory. -/
def nameOf (file : Path) : String := if file.name == packageFile then file.parent.name else file.stem

/-- The file that a request finds, with the name that it is loaded under. -/
def file? (w : World) : Request → Option (String × Path)
  | .named name directory => (directory.bind (findFile w name)).map (name, ·)
  | .located path =>
    if w.isFile (fileOf w path) then some (Text.swap '-' '_' (nameOf (fileOf w path)), fileOf w path) else none

/-- The file that a request finds by its resolved path, with the name. -/
def found? (w : World) (q : Request) : Option (String × Path) :=
  (q.file? w).bind fun f => (w.resolve f.2).toOption.map (f.1, ·)

variable {w : World} {q : Request}

theorem found?_eq_some {name : String} {p : Path} (h : q.found? w = some (name, p)) :
    ∃ file, q.file? w = some (name, file) ∧ w.resolve file = .ok p := by
  obtain ⟨f, hf, h⟩ := Option.bind_eq_some_iff.mp h
  obtain ⟨p', hp, heq⟩ := Option.map_eq_some_iff.mp h
  cases heq
  cases hr : w.resolve f.2 with
  | error e => rw [hr] at hp; cases hp
  | ok p'' =>
    rw [hr] at hp
    cases hp
    exact ⟨f.2, hf, hr⟩

theorem loadPath?_eq (path : Path) : loadPath? path = (do
    let w ← Action.world
    if w.isFile (fileOf w path) then
      Action.debug Source.modules ("Loading module '" ++ nameOf (fileOf w path) ++ "' from " ++ (fileOf w path).text)
      return some ⟨← fromFile (Text.swap '-' '_' (nameOf (fileOf w path))) (fileOf w path), some (fileOf w path)⟩
    else return none) := rfl

/-- A request that finds a file loads it. -/
theorem run_of_file {name : String} {file : Path} (h : q.file? w = some (name, file)) {s : Session}
    (hs : s.world = w) : ∃ journal, q.run.runFrom s =
      (((fromFile name file).runFrom { s with journal := journal }).1.map fun v => some ⟨v, some file⟩,
        ((fromFile name file).runFrom { s with journal := journal }).2) := by
  -- Either way the file is recorded first and then loaded, and nothing reads the record.
  have hload : ∀ message t, (do
      Action.debug Source.modules message
      return some ⟨← fromFile name file, some file⟩ : Action (Option Module)).runFrom s = t →
      ∃ journal, t =
        (((fromFile name file).runFrom { s with journal := journal }).1.map fun v => some ⟨v, some file⟩,
          ((fromFile name file).runFrom { s with journal := journal }).2) := by
    rintro message t rfl
    refine ⟨s.journal ++ [⟨Level.debug, Source.modules, message⟩], ?_⟩
    simp only [Action.runFrom_bind, Action.runFrom_debug]
    cases hrun : (fromFile name file).runFrom _ with
    | mk result t => cases result <;> rfl
  cases q with
  | named given directory =>
    obtain ⟨found, hfound, heq⟩ := Option.map_eq_some_iff.mp h
    obtain ⟨rfl, rfl⟩ := Prod.mk.inj heq
    refine hload ("Loading module '" ++ given ++ "' from " ++ found.text) _ ?_
    simp only [run, load?, Action.runFrom_bind, Action.runFrom_world, hs, hfound]
  | located path =>
    by_cases hfile : w.isFile (fileOf w path) = true
    · rw [file?, if_pos hfile] at h
      obtain ⟨rfl, rfl⟩ := Prod.mk.inj (Option.some.inj h)
      refine hload ("Loading module '" ++ nameOf (fileOf w path) ++ "' from " ++ (fileOf w path).text) _ ?_
      simp only [run, loadPath?_eq, Action.runFrom_bind, Action.runFrom_world, hs, hfile, if_true]
    · rw [file?, if_neg hfile] at h
      cases h

/-! ## One request -/

/-- What a request for a file does that has a key. -/
inductive Effect (key : String) (p : Path) (s : Session) : Except Failure (Option Module) → Session → Prop
  | again {m : Module} {t : Session} : s.registry.lookup key = some m.value → t.registry = s.registry →
      t.runs = s.runs → Effect key p s (.ok (some m)) t
  | first {m : Module} {t : Session} : s.registry.lookup key = none →
      (∃ members, m.value = .object (.moduleNamed key) members) → t.registry = (key, m.value) :: s.registry →
      t.runs = s.runs ++ [p] → Effect key p s (.ok (some m)) t
  | failed {e : Failure} {t : Session} : s.registry.lookup key = none → t.registry = s.registry →
      Effect key p s (.error e) t

theorem run_effect {name : String} {p : Path} (h : q.found? w = some (name, p)) {s : Session} (hs : s.world = w) :
    Effect (keyOf name p) p s (q.run.runFrom s).1 (q.run.runFrom s).2 ∧
      (q.run.runFrom s).2.world = w ∧ (q.run.runFrom s).2.imported = s.imported := by
  obtain ⟨file, hfile, hp⟩ := found?_eq_some h
  obtain ⟨journal, hrun⟩ := run_of_file hfile hs
  subst hs
  rw [hrun]
  cases hl : s.registry.lookup (keyOf name p) with
  | some v =>
    rw [fromFile_registered (s := { s with journal := journal }) hp hl]
    exact ⟨.again hl rfl rfl, rfl, rfl⟩
  | none =>
    rw [fromFile_new (s := { s with journal := journal }) hp hl]
    refine ⟨?_, rfl, rfl⟩
    cases hload : loaded s.world name file with
    | error e => exact .failed hl rfl
    | ok v => exact .first hl (named_of_loaded hp hload) rfl (by simp [endsWith_of_loaded hload])

/-- What a request for a file ends with depends on what is registered under its key. -/
theorem run_congr {name : String} {p : Path} (h : q.found? w = some (name, p)) {s t : Session} (hs : s.world = w)
    (ht : t.world = w) (hl : s.registry.lookup (keyOf name p) = t.registry.lookup (keyOf name p)) :
    (q.run.runFrom s).1 = (q.run.runFrom t).1 := by
  obtain ⟨file, hfile, hp⟩ := found?_eq_some h
  obtain ⟨journal, hrun⟩ := run_of_file hfile hs
  obtain ⟨journal', hrun'⟩ := run_of_file hfile ht
  subst hs
  rw [hrun, hrun']
  cases hlookup : s.registry.lookup (keyOf name p) with
  | some v =>
    rw [fromFile_registered (s := { s with journal := journal }) hp hlookup,
      fromFile_registered (s := { t with journal := journal' }) (ht ▸ hp) (hl ▸ hlookup)]
  | none =>
    rw [fromFile_new (s := { s with journal := journal }) hp hlookup,
      fromFile_new (s := { t with journal := journal' }) (ht ▸ hp) (hl ▸ hlookup)]
    simp only [ht]

/-- An action that leaves the modules alone that were loaded from files. -/
abbrev Keeps {α : Type} (w : World) (registry : List (String × Value)) (a : Action α) : Prop :=
  Yields (fun s => s.world = w ∧ s.registry = registry) (fun _ => True) a fun _ => True

variable {registry : List (String × Value)}

theorem importIn_keeps (name last : String) (directories : List Path) :
    Keeps w registry (importIn name last directories) := by
  rintro s ⟨hs, hr⟩
  obtain ⟨hresult, runs, hrun⟩ := importIn_run name last directories hs
  rw [hresult, hrun]
  exact ⟨⟨hs, hr⟩, trivial⟩

theorem importBelow_keeps (name last : String) (i : Import) : Keeps w registry (importBelow name last i) := by
  cases i with
  | found parent =>
    refine Yields.get.bind fun s _ => ?_
    split
    · exact .pure trivial
    · exact importIn_keeps _ _ _
    · exact .pure trivial
  | _ => exact .pure trivial

theorem importParts_keeps (parts : List String) : Keeps w registry (importParts parts) := by
  induction parts with
  | nil => exact .pure trivial
  | cons last parents ih =>
    refine Yields.get.bind fun s _ => ?_
    split
    · exact .pure trivial
    split
    · exact (Yields.get.bind fun _ _ => .pure trivial : Keeps w registry Action.world).bind
        fun w' _ => importIn_keeps _ _ _
    · exact ih.bind fun i _ => importBelow_keeps _ _ i

theorem import?_keeps (name : String) : Keeps w registry (import? name) := by
  unfold import?
  split
  · exact .throw trivial
  split
  · exact .throw trivial
  refine (importParts_keeps _).bind fun i _ => ?_
  split
  · exact .pure trivial
  · exact .pure trivial
  · split
    · exact .pure trivial
    · exact .throw trivial

/-- Without a file nothing is registered. -/
theorem run_elsewhere (h : q.found? w = none) {s : Session} (hs : s.world = w) :
    (q.run.runFrom s).2.world = w ∧ (q.run.runFrom s).2.registry = s.registry := by
  cases hfile : q.file? w with
  | some f =>
    obtain ⟨name, file⟩ := f
    obtain ⟨journal, hrun⟩ := run_of_file hfile hs
    cases hp : w.resolve file with
    | error e =>
      rw [hrun, fromFile_unresolved (s := { s with journal := journal }) (hs ▸ hp)]
      exact ⟨hs, rfl⟩
    | ok p =>
      rw [found?, hfile, Option.bind_some, hp] at h
      cases h
  | none =>
    cases q with
    | named name directory =>
      have hnone : directory.bind (findFile w name) = none := Option.map_eq_none_iff.mp hfile
      simp only [run, load?, Action.runFrom_bind, Action.runFrom_world, hs, hnone]
      exact (import?_keeps name s ⟨hs, rfl⟩).1
    | located path =>
      have hnone : ¬ w.isFile (fileOf w path) = true := fun hpath => by
        rw [file?, if_pos hpath] at hfile
        cases hfile
      simp only [run, loadPath?_eq, Action.runFrom_bind, Action.runFrom_world, hs, hnone]
      exact ⟨hs, rfl⟩

end Request

/-! ## Requests one after the other -/

/-- A session later in a world: modules stay registered, and new ones are registered
under their own names. -/
structure Later (w : World) (s t : Session) : Prop where
  world : t.world = w
  kept : ∀ key v, s.registry.lookup key = some v → t.registry.lookup key = some v
  named : ∀ key v, t.registry.lookup key = some v →
    s.registry.lookup key = some v ∨ ∃ members, v = .object (.moduleNamed key) members

variable {w : World}

theorem Later.refl {s : Session} (hs : s.world = w) : Later w s s := ⟨hs, fun _ _ h => h, fun _ _ h => .inl h⟩

theorem Later.trans {s t u : Session} (h : Later w s t) (h' : Later w t u) : Later w s u :=
  ⟨h'.world, fun key v hv => h'.kept key v (h.kept key v hv),
    fun key v hv => (h'.named key v hv).elim (h.named key v) .inr⟩

theorem Request.later (q : Request) {s : Session} (hs : s.world = w) : Later w s (q.run.runFrom s).2 := by
  cases hq : q.found? w with
  | none =>
    obtain ⟨hw, hr⟩ := run_elsewhere hq hs
    exact ⟨hw, fun _ _ h => hr ▸ h, fun _ _ h => .inl (hr ▸ h)⟩
  | some f =>
    obtain ⟨name, p⟩ := f
    obtain ⟨heffect, hw, -⟩ := run_effect hq hs
    revert heffect hw
    generalize (q.run.runFrom s).1 = result, (q.run.runFrom s).2 = t
    intro heffect hw
    cases heffect with
    | again hl hr hruns => exact ⟨hw, fun _ _ h => hr ▸ h, fun _ _ h => .inl (hr ▸ h)⟩
    | failed hl hr => exact ⟨hw, fun _ _ h => hr ▸ h, fun _ _ h => .inl (hr ▸ h)⟩
    | first hl hm hr hruns =>
      refine ⟨hw, fun key v h => ?_, fun key v h => ?_⟩
      · rw [hr, List.lookup_cons]
        split
        · rename_i heq
          cases eq_of_beq heq
          rw [hl] at h
          cases h
        · exact h
      · rw [hr, List.lookup_cons] at h
        split at h
        · rename_i heq
          cases eq_of_beq heq
          cases h
          exact .inr hm
        · exact .inl h

/-- The session after requests, whether or not they succeed. -/
def ranAll (s : Session) (requests : List Request) : Session :=
  requests.foldl (fun s q => (q.run.runFrom s).2) s

theorem later_ranAll (requests : List Request) {s : Session} (hs : s.world = w) : Later w s (ranAll s requests) := by
  induction requests generalizing s with
  | nil => exact .refl hs
  | cons q rest ih => exact (q.later hs).trans (ih (q.later hs).world)

/-- The session before the request at a place, from the start. -/
def before (w : World) (requests : List Request) (i : Nat) : Session := ranAll (Session.start w) (requests.take i)

theorem before_succ {requests : List Request} {i : Nat} {q : Request} (h : requests[i]? = some q) :
    before w requests (i + 1) = (q.run.runFrom (before w requests i)).2 := by
  rw [before, List.take_add_one, h, Option.toList_some, ranAll, List.foldl_append]
  rfl

theorem later_before {requests : List Request} {i j : Nat} (h : i ≤ j) :
    Later w (before w requests i) (before w requests j) := by
  have hsplit : requests.take j = requests.take i ++ (requests.take j).drop i := by
    conv_lhs => rw [← List.take_append_drop i (requests.take j), List.take_take, Nat.min_eq_left h]
  rw [before, before, hsplit, ranAll, ranAll, List.foldl_append]
  exact later_ranAll _ (later_ranAll (requests.take i) rfl).world

/-- Modules are registered under their own names. -/
theorem named_before {requests : List Request} {i : Nat} {key : String} {v : Value}
    (h : (before w requests i).registry.lookup key = some v) : ∃ members, v = .object (.moduleNamed key) members :=
  ((later_ranAll (requests.take i) (s := Session.start w) rfl).named key v h).elim nofun id

/-! ## Files and their modules -/

section
variable (w : World) (requests : List Request)

/-- The request at a place finds a file by its resolved path, with a name to load it under. -/
def Finds (i : Nat) (name : String) (p : Path) : Prop :=
  ∃ q, requests[i]? = some q ∧ q.found? w = some (name, p)

/-- What the request at a place ends with. -/
def ending (i : Nat) : Option (Except Failure (Option Module)) :=
  requests[i]?.map fun q => (q.run.runFrom (before w requests i)).1

/-- The request at a place ends with a module. -/
def Returns (i : Nat) (v : Value) : Prop := ∃ m : Module, ending w requests i = some (.ok (some m)) ∧ m.value = v

/-- The request at a place runs a file, which ends with a module. -/
def Executes (i : Nat) (p : Path) : Prop :=
  (∃ v, Returns w requests i v) ∧ (before w requests (i + 1)).runs = (before w requests i).runs ++ [p]

/-- Files that are found have the same digits only if they are the same. -/
def DigitsApart : Prop :=
  ∀ f ∈ requests.filterMap (Request.found? w), ∀ f' ∈ requests.filterMap (Request.found? w),
    digits f.2 = digits f'.2 → f.2 = f'.2

end

variable {requests : List Request} {i j : Nat} {name name' : String} {p p' : Path} {v v' : Value}

theorem Finds.mem (h : Finds w requests i name p) : (name, p) ∈ requests.filterMap (Request.found? w) := by
  obtain ⟨q, hq, hfound⟩ := h
  exact List.mem_filterMap.mpr ⟨q, List.mem_of_getElem? hq, hfound⟩

theorem keyOf_eq_iff (hd : DigitsApart w requests) (h : Finds w requests i name p)
    (h' : Finds w requests j name' p') : keyOf name p = keyOf name' p' ↔
      p = p' ∧ Text.swap '.' '_' name = Text.swap '.' '_' name' := by
  rw [keyOf_inj, and_comm]
  exact and_congr_left fun _ => ⟨hd _ h.mem _ h'.mem, congrArg digits⟩

/-- The effect of a request is what it ends with and what is there before the next one. -/
theorem Finds.effect (h : Finds w requests i name p) : ∃ result, ending w requests i = some result ∧
    Request.Effect (keyOf name p) p (before w requests i) result (before w requests (i + 1)) ∧
    (before w requests (i + 1)).imported = (before w requests i).imported := by
  obtain ⟨q, hq, hfound⟩ := h
  obtain ⟨heffect, -, himported⟩ := Request.run_effect hfound (later_before (Nat.le_refl i)).world
  rw [before_succ hq]
  exact ⟨_, by rw [ending, hq]; rfl, heffect, himported⟩

/-- A module that a request gives is registered from then on. -/
theorem Finds.registered (h : Finds w requests i name p) (hv : Returns w requests i v) (hij : i < j) :
    (before w requests j).registry.lookup (keyOf name p) = some v := by
  obtain ⟨m, hm, rfl⟩ := hv
  obtain ⟨result, hresult, heffect, -⟩ := h.effect
  cases hresult.symm.trans hm
  refine (later_before hij).kept _ _ ?_
  cases heffect with
  | again hl hr _ => rw [hr, hl]
  | first _ _ hr _ => rw [hr, List.lookup_cons_self]

/-- A request for what is registered gives it again, and runs nothing. -/
theorem Finds.again (h : Finds w requests j name p)
    (hl : (before w requests j).registry.lookup (keyOf name p) = some v) :
    Returns w requests j v ∧ (before w requests (j + 1)).runs = (before w requests j).runs := by
  obtain ⟨result, hresult, heffect, -⟩ := h.effect
  generalize before w requests (j + 1) = t at heffect
  cases heffect with
  | again hl' _ hruns => exact ⟨⟨_, hresult, Option.some.inj (hl'.symm.trans hl)⟩, hruns⟩
  | first hl' => rw [hl] at hl'; cases hl'
  | failed hl' => rw [hl] at hl'; cases hl'

theorem Returns.eq (h : Returns w requests i v) (h' : Returns w requests i v') : v = v' := by
  obtain ⟨m, hm, rfl⟩ := h
  obtain ⟨m', hm', rfl⟩ := h'
  cases hm.symm.trans hm'
  rfl

/-- Two requests for files give the same module just when the key is the same. -/
theorem returns_eq_iff (h : Finds w requests i name p) (h' : Finds w requests j name' p')
    (hv : Returns w requests i v) (hv' : Returns w requests j v') : v = v' ↔ keyOf name p = keyOf name' p' := by
  constructor
  · rintro rfl
    obtain ⟨members, hname⟩ := named_before (h.registered hv (Nat.lt_succ_self i))
    obtain ⟨members', hname'⟩ := named_before (h'.registered hv' (Nat.lt_succ_self j))
    exact Kind.moduleNamed.inj (Value.object.inj (hname.symm.trans hname')).1
  · intro hkey
    rcases Nat.lt_trichotomy i j with hij | rfl | hij
    · exact ((h'.again (hkey ▸ h.registered hv hij)).1).eq hv'
    · exact hv.eq hv'
    · exact hv.eq (h.again (hkey ▸ h'.registered hv' hij)).1

/-- A file that has been executed with success is not executed again under the same key. -/
theorem Finds.executed (h : Finds w requests i name p) (h' : Finds w requests j name' p')
    (hkey : keyOf name p = keyOf name' p') (hx : Executes w requests i p) (hij : i < j) :
    ¬ Executes w requests j p' := by
  rintro ⟨-, hruns⟩
  obtain ⟨v, hv⟩ := hx.1
  rw [(h'.again (hkey ▸ h.registered hv hij)).2] at hruns
  simp at hruns

/-- What requests do to the modules of files. -/
structure OncePerName (w : World) (requests : List Request) : Prop where
  /-- A file gives the same module again just when it is loaded under the same name. -/
  same : ∀ i j name name' p p' v v', Finds w requests i name p → Finds w requests j name' p' →
    Returns w requests i v → Returns w requests j v' →
    (v = v' ↔ p = p' ∧ Text.swap '.' '_' name = Text.swap '.' '_' name')
  /-- A module that was given once is given again without an execution. -/
  again : ∀ i j name name' p v, i < j → Finds w requests i name p → Finds w requests j name' p →
    Text.swap '.' '_' name = Text.swap '.' '_' name' → Returns w requests i v →
    Returns w requests j v ∧ (before w requests (j + 1)).runs = (before w requests j).runs
  /-- Under one name a file is executed with success once. -/
  once : ∀ i j name name' p, Finds w requests i name p → Finds w requests j name' p →
    Text.swap '.' '_' name = Text.swap '.' '_' name' → Executes w requests i p → Executes w requests j p → i = j
  /-- An execution that fails leaves all modules as they were. -/
  failed : ∀ i name p e, Finds w requests i name p → ending w requests i = some (.error e) →
    (before w requests (i + 1)).registry = (before w requests i).registry ∧
    (before w requests (i + 1)).imported = (before w requests i).imported
  /-- Only the own key is read, and only added; it is never the name of another module. -/
  confined : ∀ i name p, Finds w requests i name p → Text.startsWith (keyOf name p) (registryName ++ ".") = true ∧
    (before w requests (i + 1)).imported = (before w requests i).imported ∧
    ((before w requests (i + 1)).registry = (before w requests i).registry ∨
      (before w requests i).registry.lookup (keyOf name p) = none ∧
      ∃ v, (before w requests (i + 1)).registry = (keyOf name p, v) :: (before w requests i).registry) ∧
    ∀ q s, requests[i]? = some q → s.world = w →
      s.registry.lookup (keyOf name p) = (before w requests i).registry.lookup (keyOf name p) →
      ending w requests i = some (q.run.runFrom s).1
  /-- Where no file is found, nothing happens to the modules of files. -/
  elsewhere : ∀ i q, requests[i]? = some q → q.found? w = none →
    (before w requests (i + 1)).registry = (before w requests i).registry

theorem exists_returns (h : ((ending w requests i).bind Except.toOption).join.isSome = true) :
    ∃ v, Returns w requests i v := by
  obtain ⟨m, hm⟩ := Option.isSome_iff_exists.mp h
  obtain ⟨result, hresult, hm⟩ := Option.bind_eq_some_iff.mp (Option.join_eq_some_iff.mp hm)
  cases result with
  | error e => cases hm
  | ok found =>
    cases hm
    exact ⟨m.value, m, hresult, rfl⟩

theorem exists_error (h : (ending w requests i).map Except.isOk = some false) :
    ∃ e, ending w requests i = some (.error e) := by
  obtain ⟨result, hresult, herror⟩ := Option.map_eq_some_iff.mp h
  cases result with
  | error e => exact ⟨e, hresult⟩
  | ok found => cases herror

/-! A file that is asked for twice, and between that one that cannot be run. -/

def sharedWorld : World where
  here := ["work"]
  entries := [(["work", "plug.py"], .script (.defines [])),
    (["work", "broken.py"], .script (.raises "ValueError" "broken" none))]

def sharedRequests : List Request :=
  [.located ⟨"", ["plug.py"]⟩, .located ⟨"", ["broken.py"]⟩, .named "plug" (some ⟨"", []⟩)]

def scopedWorld : World where
  here := ["work"]
  entries := [(["work", "scope", "plug.py"], .script (.defines []))]

def scopedRequests : List Request := [.named "scope.plug" (some ⟨"", []⟩), .located ⟨"", ["scope", "plug.py"]⟩]

end Cascade.Module
