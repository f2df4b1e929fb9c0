import Cascade.Proofs.Resolution.Agreement

/-! # The journal does not matter

Nothing reads the journal. Two sessions that differ in it only have loaded the same,
and resolution does not tell the difference between them, so what is recorded on one
way and not on another one is of no consequence. -/
namespace Cascade

open Resolution

/-- Two sessions of a world that differ in their journals at most. -/
def Session.Alike (w : World) (s t : Session) : Prop := s.world = w ∧ ∃ journal, t = { s with journal }

section
variable {w : World} {same : Prop}

theorem alike_world : Agrees (Session.Alike w) same Action.world Action.world fun x y => w = x ∧ w = y := by
  rintro s _ ⟨hs, journal, rfl⟩
  exact ⟨⟨hs, journal, rfl⟩, hs.symm, hs.symm⟩

theorem alike_get : Agrees (Session.Alike w) same (getThe Session) (getThe Session) (Session.Alike w) :=
  fun _ _ h => ⟨h, h⟩

theorem alike_modify {f : Session → Session}
    (hf : ∀ s t, Session.Alike w s t → Session.Alike w (f s) (f t)) :
    Agrees (Session.Alike w) same (modifyThe Session f) (modifyThe Session f) Eq :=
  fun s t h => ⟨hf s t h, rfl⟩

theorem alike_debug (source : Source) (message message' : String) : Agrees (Session.Alike w) same
    (Action.debug source message) (Action.debug source message') fun _ _ => True := by
  rintro s _ ⟨hs, journal, rfl⟩
  exact ⟨⟨hs, _, rfl⟩, trivial⟩

end

namespace Module

variable {w : World} {same : Prop}

theorem noteRun_alike (path : Path) : Agrees (Session.Alike w) same (noteRun path) (noteRun path) Eq := by
  refine alike_modify ?_
  rintro s _ ⟨hs, journal, rfl⟩
  exact ⟨hs, journal, rfl⟩

theorem fromFile_alike (name : String) (path : Path) :
    Agrees (Session.Alike w) same (fromFile name path) (fromFile name path) Eq := by
  unfold fromFile
  refine alike_world.bind fun _ _ heq => ?_
  obtain ⟨rfl, rfl⟩ := heq
  refine (Agrees.ofFault _).bind fun key _ heq => ?_
  subst heq
  refine alike_get.bind fun s t h => ?_
  obtain ⟨-, journal, rfl⟩ := h
  dsimp only
  cases s.registry.lookup key with
  | some v => exact .pure rfl
  | none =>
    dsimp only
    split
    · exact .throw fun _ => rfl
    refine (noteRun_alike path).bind fun _ _ _ => ?_
    split
    · exact .throw fun _ => rfl
    · refine (alike_modify ?_).bind fun _ _ _ => .pure rfl
      rintro s _ ⟨hs, journal, rfl⟩
      exact ⟨hs, journal, rfl⟩

theorem importIn_alike (name last : String) (directories : List Path) :
    Agrees (Session.Alike w) same (importIn name last directories) (importIn name last directories) Eq := by
  have remember : ∀ m : Imported, Agrees (Session.Alike w) same
      (do
        modifyThe Session fun s => { s with imported := (name, m) :: s.imported }
        return Import.found m)
      (do
        modifyThe Session fun s => { s with imported := (name, m) :: s.imported }
        return Import.found m) Eq := by
    intro m
    refine (alike_modify ?_).bind fun _ _ _ => .pure rfl
    rintro s _ ⟨hs, journal, rfl⟩
    exact ⟨hs, journal, rfl⟩
  unfold importIn
  refine alike_world.bind fun _ _ heq => ?_
  obtain ⟨rfl, rfl⟩ := heq
  dsimp only
  split
  · exact .pure rfl
  · exact remember _
  · refine (noteRun_alike _).bind fun _ _ _ => ?_
    split
    · exact .pure rfl
    · exact remember _

theorem importBelow_alike (name last : String) (parent : Import) :
    Agrees (Session.Alike w) same (importBelow name last parent) (importBelow name last parent) Eq := by
  unfold importBelow
  cases parent with
  | found parent =>
    refine alike_get.bind fun s t h => ?_
    obtain ⟨-, journal, rfl⟩ := h
    dsimp only
    split
    · exact .pure rfl
    · exact importIn_alike name last _
    · exact .pure rfl
  | absent => exact .pure rfl
  | failed kind message missing => exact .pure rfl

theorem importParts_alike (parts : List String) :
    Agrees (Session.Alike w) same (importParts parts) (importParts parts) Eq := by
  induction parts with
  | nil => exact .pure rfl
  | cons last parents ih =>
    unfold importParts
    refine alike_get.bind fun s t h => ?_
    obtain ⟨-, journal, rfl⟩ := h
    dsimp only
    split
    · exact .pure rfl
    split
    · refine alike_world.bind fun _ _ heq => ?_
      obtain ⟨rfl, rfl⟩ := heq
      exact importIn_alike _ last _
    · refine ih.bind fun parent _ heq => ?_
      subst heq
      exact importBelow_alike _ last parent

theorem import?_alike (name : String) : Agrees (Session.Alike w) same (import? name) (import? name) Eq := by
  unfold import?
  split
  · exact .throw fun _ => rfl
  split
  · exact .throw fun _ => rfl
  refine (importParts_alike _).bind fun found _ heq => ?_
  subst heq
  cases found with
  | found m => exact .pure rfl
  | absent => exact .pure rfl
  | failed kind message missing =>
    dsimp only
    split
    · exact .pure rfl
    · exact .throw fun _ => rfl

/-- Loading the module of a file that there is. -/
theorem found_alike (source : Source) (message name : String) (path : Path) : Agrees (Session.Alike w) same
    (do
      Action.debug source message
      return some (⟨← fromFile name path, some path⟩ : Module))
    (do
      Action.debug source message
      return some ⟨← fromFile name path, some path⟩) Eq :=
  (alike_debug source message message).bind fun _ _ _ =>
    (fromFile_alike name path).bind fun _ _ heq => .pure (by rw [heq])

theorem load?_alike (name : String) (directory : Option Path) :
    Agrees (Session.Alike w) same (load? name directory) (load? name directory) Eq := by
  unfold load?
  refine alike_world.bind fun _ _ heq => ?_
  obtain ⟨rfl, rfl⟩ := heq
  split
  · exact found_alike _ _ name _
  · exact import?_alike name

theorem loadPath?_alike (path : Path) :
    Agrees (Session.Alike w) same (loadPath? path) (loadPath? path) Eq := by
  unfold loadPath?
  refine alike_world.bind fun _ _ heq => ?_
  obtain ⟨rfl, rfl⟩ := heq
  dsimp only
  generalize (if w.isDirectory path = true then path.child packageFile else path) = file
  split
  · exact found_alike _ _ _ _
  · exact .pure rfl

end Module

namespace Resolution

variable {r : Resolver} {w : World} {same : Prop} {ctx ctx' : Context}

theorem moduleConfig_alike (m : Module) (reference : String) :
    Agrees (Session.Alike w) same (moduleConfig m reference) (moduleConfig m reference) Eq := by
  unfold moduleConfig
  refine alike_get.bind fun s t h => ?_
  obtain ⟨-, journal, rfl⟩ := h
  have hattribute : attribute? { s with journal } m.value "config" = attribute? s m.value "config" := rfl
  rw [hattribute]
  split
  · exact .throw fun _ => rfl
  · exact .pure rfl

theorem loadPlugin_alike (name : String) (h : Renamed same ctx ctx') :
    Agrees (Session.Alike w) same (loadPlugin r name ctx) (loadPlugin r name ctx')
      (Like same Dependency.anonymous) := by
  obtain ⟨other, rfl, hname⟩ := h
  have named : ∀ id definition file, Like same Dependency.anonymous
      ⟨id, definition, file, ctx.name⟩ ⟨id, definition, file, (ctx.named other).name⟩ :=
    fun id definition file => ⟨rfl, fun hsame => by rw [Context.named, hname hsame]⟩
  unfold loadPlugin
  split
  · exact .throw fun hsame => by rw [Context.named, hname hsame]
  refine (Agrees.ofFault _).bind fun package _ heq => ?_
  subst heq
  refine alike_get.bind fun s t h => ?_
  obtain ⟨-, journal, rfl⟩ := h
  dsimp only
  cases s.plugins.lookup package with
  | some entry => exact .pure (named _ _ _)
  | none =>
    refine (Module.load?_alike _ _).bind fun loaded _ heq => ?_
    subst heq
    cases loaded with
    | none => exact .throw fun hsame => by rw [Context.named, hname hsame]
    | some m =>
      refine (alike_debug _ _ _).bind fun _ _ _ => ?_
      refine alike_get.bind fun s t h => ?_
      obtain ⟨-, journal, rfl⟩ := h
      have hdefinition : pluginDefinition { s with journal } m.value = pluginDefinition s m.value := rfl
      rw [hdefinition]
      refine (alike_modify ?_).bind fun _ _ _ => .pure (named _ _ _)
      rintro s _ ⟨hs, journal, rfl⟩
      exact ⟨hs, journal, rfl⟩

theorem unrecorded_alike : Unrecorded w (Session.Alike w) where
  world := by
    rintro s _ ⟨hs, journal, rfl⟩
    exact ⟨hs, hs⟩
  recorded := by
    rintro s _ ⟨hs, journal, rfl⟩ _ _
    exact ⟨hs, _, rfl⟩

theorem interchangeable_alike : Interchangeable r w (Session.Alike w) where
  toUnrecorded := unrecorded_alike
  load? := fun name directory _ => Module.load?_alike name directory
  loadPath? := fun {path _} _ => Module.loadPath?_alike path
  moduleConfig := fun m reference _ => moduleConfig_alike m reference
  loadPlugin := fun name _ _ _ h => loadPlugin_alike name h

end Resolution

/-! ## Actions that only record -/

/-- An action that depends on the world only, and leaves everything as it is but the
journal. -/
def Quiet {α : Type} (w : World) (a : Action α) : Prop :=
  ∀ s, s.world = w → ∃ journal, a.runFrom s = (a.outcome w, { s with journal })

namespace Quiet

variable {α β γ : Type} {w : World} {a : Action α} {f : α → Action β}

theorem pure (x : α) : Quiet w (Pure.pure x) := fun s _ => ⟨s.journal, rfl⟩

theorem throw (e : Failure) : Quiet w (throw e : Action α) := fun s _ => ⟨s.journal, rfl⟩

theorem world : Quiet w Action.world := by
  rintro s rfl
  exact ⟨s.journal, rfl⟩

theorem shared : Quiet w Action.shared := by
  rintro s rfl
  exact ⟨s.journal, rfl⟩

theorem debug (source : Source) (message : String) : Quiet w (Action.debug source message) :=
  fun _ _ => ⟨_, rfl⟩

theorem ofFault (x : Except Fault α) : Quiet w (Action.ofFault x) := fun s _ => ⟨s.journal, rfl⟩

theorem ofProblem (x : Except Problem α) : Quiet w (Action.ofProblem x) := fun s _ => ⟨s.journal, rfl⟩

theorem ofLogged (x : Logged α) : Quiet w (Action.ofLogged x) := fun _ _ => ⟨_, rfl⟩

theorem outcome_bind (h : Quiet w a) (hf : ∀ x, a.outcome w = .ok x → Quiet w (f x)) :
    (a >>= f).outcome w = a.outcome w >>= fun x => (f x).outcome w := by
  obtain ⟨journal, hrun⟩ := h (Session.start w) rfl
  show ((a >>= f).runFrom (Session.start w)).1 = _
  rw [Action.runFrom_bind, hrun]
  cases ha : a.outcome w with
  | error e => rfl
  | ok x =>
    obtain ⟨journal', hrun'⟩ := hf x ha { Session.start w with journal } rfl
    dsimp only
    rw [hrun']
    rfl

theorem bind (h : Quiet w a) (hf : ∀ x, a.outcome w = .ok x → Quiet w (f x)) : Quiet w (a >>= f) := by
  intro s hs
  obtain ⟨journal, hrun⟩ := h s hs
  rw [h.outcome_bind hf, Action.runFrom_bind, hrun]
  cases ha : a.outcome w with
  | error e => exact ⟨journal, rfl⟩
  | ok x =>
    obtain ⟨journal', hrun'⟩ := hf x ha { s with journal } hs
    exact ⟨journal', hrun'⟩

theorem mapM {l : List α} (h : ∀ x ∈ l, Quiet w (f x)) : Quiet w (l.mapM f) := by
  induction l with
  | nil => exact .pure _
  | cons x rest ih =>
    rw [List.mapM_cons]
    exact (h x (by simp)).bind fun y _ =>
      (ih fun x hx => h x (List.mem_cons_of_mem _ hx)).bind fun ys _ => .pure _

variable {J : Session → Session → Prop} {E : Failure → Failure → Prop} {b : Action γ}

/-- A step that only records can be left out of a run. -/
theorem agree_right {R : γ → β → Prop} (hj : Resolution.Unrecorded w J) (h : Quiet w a) {x : α}
    (ha : a.outcome w = .ok x) (hf : Agree J E b (f x) R) : Agree J E b (a >>= f) R := by
  intro s t hst
  obtain ⟨journal, hrun⟩ := h t (hj.world hst).2
  rw [Action.runFrom_bind, hrun, ha]
  exact hf _ _ (hj.recorded hst s.journal journal)

/-- Two actions that only record agree when their outcomes do. -/
theorem agree {R : α → γ → Prop} (hj : Resolution.Unrecorded w J) (h : Quiet w a) (hb : Quiet w b)
    (hm : Matches E R (a.outcome w) (b.outcome w)) : Agree J E a b R := by
  intro s t hst
  obtain ⟨journal, hrun⟩ := h s (hj.world hst).1
  obtain ⟨journal', hrun'⟩ := hb t (hj.world hst).2
  rw [hrun, hrun']
  exact ⟨hj.recorded hst journal journal', hm⟩

end Quiet

end Cascade
