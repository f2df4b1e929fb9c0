import Cascade.Proofs.Resolution.Sources

/-! # Checks of configurations

A check of a configuration reports what is wrong with it. Such a report is never
about a chain of configurations, so it does not matter for cycles. -/
namespace Cascade.Resolution

variable {α β : Type}

/-- What a check reports is not a cycle of configurations. -/
def Checks (x : Except Problem α) : Prop := ∀ chain, x ≠ .error (.extendsCycle chain)

namespace Checks

theorem ok (a : α) : Checks (.ok a) := fun _ h => nomatch h

theorem bind {x : Except Problem α} {f : α → Except Problem β} (h : Checks x)
    (hf : ∀ a, x = .ok a → Checks (f a)) : Checks (x >>= f) := by
  cases x with
  | ok a => exact hf a rfl
  | error p =>
    intro chain he
    exact h chain (by cases he; rfl)

theorem forM {f : α → Except Problem PUnit} {l : List α} (h : ∀ a ∈ l, Checks (f a)) :
    Checks (l.forM f) := by
  induction l with
  | nil => exact ok _
  | cons a rest ih =>
    show Checks (f a >>= fun _ => rest.forM f)
    exact (h a (by simp)).bind fun _ _ => ih fun a ha => h a (List.mem_cons_of_mem _ ha)

end Checks

/-- An action that makes a check fails in a regular way. -/
theorem ofProblem_gives {w : World} {C : List String → Prop} {x : Except Problem α} (h : Checks x) :
    Gives w C (Action.ofProblem x) fun a => x = .ok a := by
  refine Yields.ofProblem (fun _ hx => hx) fun p hp => ⟨by simp, fun chain heq => ?_⟩
  cases heq
  exact absurd hp (h chain)

variable (store : Shared)

theorem checks_patternList (key source : String) (v : Value) :
    Checks (Criteria.patternList store key source v) := by
  intro chain
  unfold Criteria.patternList
  split
  · simp
  · simp
  · split <;> simp
  · simp

theorem checks_make (files excluded : Value) (base : Option String) (source : String) :
    Checks (Criteria.make store files excluded base source) := by
  unfold Criteria.make
  refine (checks_patternList store _ _ _).bind fun includes _ => ?_
  refine (checks_patternList store _ _ _).bind fun excludes _ => ?_
  split
  · intro chain h
    cases h
  · split <;> exact .ok _

theorem checks_checkMapping (m : Entries) (ctx : Context) (key : String) :
    Checks (checkMapping store m ctx key) := by
  unfold checkMapping
  split
  · split
    · exact .ok _
    · intro chain h
      cases h
  · exact .ok _

theorem checks_checkBoolean (m : Entries) (ctx : Context) (key : String) :
    Checks (checkBoolean m ctx key) := by
  unfold checkBoolean
  split
  · split
    · exact .ok _
    · intro chain h
      cases h
  · exact .ok _

theorem checks_checkMembers (m : Entries) (ctx : Context) : Checks (checkMembers store m ctx) := by
  unfold checkMembers
  dsimp only
  split
  · intro chain h
    cases h
  · exact (Checks.forM fun key _ => checks_checkMapping store m ctx key).bind fun _ _ =>
      .forM fun key _ => checks_checkBoolean m ctx key

theorem checks_references (m : Entries) (ctx : Context) : Checks (references store m ctx) := by
  intro chain
  unfold references
  split
  · simp
  · simp
  · split <;> simp
  · simp

theorem checks_ignorePattern? (m : Entries) (ctx : Context) : Checks (ignorePattern? store m ctx) := by
  unfold ignorePattern?
  refine (checks_patternList store _ _ _).bind fun patterns _ => ?_
  split
  · exact .ok _
  · split
    · intro chain h
      cases h
    · exact .ok _

theorem checks_overrides (m : Entries) (ctx : Context) : Checks (overrides store m ctx) := by
  intro chain
  unfold overrides
  split
  · simp
  · split <;> simp

theorem checks_overrideContext (override : Value) (ctx : Context) :
    Checks (overrideContext store override ctx) := by
  unfold overrideContext
  split
  · split
    · intro chain h
      cases h
    · refine (checks_make store _ _ _ _).bind fun criteria _ => ?_
      split
      · intro chain h
        cases h
      · exact .ok _
  · intro chain h
    cases h

/-- An override has patterns of files, which join those around it. -/
theorem overrideContext_eq_ok {store : Shared} {override : Value} {ctx ctx' : Context} :
    overrideContext store override ctx = .ok ctx' ↔
    ∃ m files c, store.view override = .mapping m ∧ Entries.field? m "files" = some files ∧
      Criteria.make store files ((Entries.field? m "excludedFiles").getD .null)
        (some ctx.directory.text) ctx.name = .ok (some c) ∧
      ctx' = { ctx with criteria := Criteria.combine ctx.criteria (some c), inOverride := true } := by
  constructor
  · intro h
    unfold overrideContext at h
    split at h
    · rename_i m hm
      split at h
      · cases h
      · rename_i files hf
        obtain ⟨c, hc, h⟩ := bind_eq_ok.mp h
        cases c with
        | none => cases h
        | some c =>
          cases h
          exact ⟨m, files, c, hm, hf, hc, rfl⟩
    · cases h
  · rintro ⟨m, files, c, hm, hf, hc, rfl⟩
    unfold overrideContext
    simp only [hm, hf, hc, ok_bind]
    rfl

theorem extensionElements_yields {I : Session → Prop} {E : Failure → Prop} {Q : Element → Prop}
    {ctx : Context} {plugin : String}
    (h : ∀ extension, Yields I E (processorElement ctx plugin extension) Q) (hname : E (.fault .noMember))
    (name : Value) : Yields I E (extensionElements ctx plugin name) fun es => ∀ e ∈ es, Q e := by
  unfold extensionElements
  split
  · split
    · exact (h _).bind fun e he => .pure (by simpa using he)
    · exact .pure (by simp)
  · exact .throw hname

/-- The elements of processors have a property that each of them has. -/
theorem processorElements_yields {I : Session → Prop} {E : Failure → Prop} {Q : Element → Prop}
    {ctx : Context} (h : ∀ plugin extension, Yields I E (processorElement ctx plugin extension) Q)
    (hname : E (.fault .noMember)) (hitems : E (.fault .unsupported))
    (hshared : Yields I E Action.shared fun _ => True) (plugins : List (String × Dependency)) :
    Yields I E (processorElements ctx plugins) fun es => ∀ e ∈ es, Q e := by
  have all : ∀ {ess : List (List Element)}, (∀ es ∈ ess, ∀ e ∈ es, Q e) → ∀ e ∈ ess.flatten, Q e := by
    intro ess hess e he
    obtain ⟨es, hes, he⟩ := List.mem_flatten.mp he
    exact hess es hes e he
  unfold processorElements
  refine hshared.bind fun store _ => ?_
  refine (Yields.mapM (R := fun es => ∀ e ∈ es, Q e) fun p _ => ?_).bind fun _ hp => .pure (all hp)
  have perName : ∀ names : List Value, Yields I E
      (do return (← names.mapM (extensionElements ctx p.1)).flatten) fun es => ∀ e ∈ es, Q e :=
    fun names => (Yields.mapM fun name _ => extensionElements_yields (h p.1) hname name).bind
      fun _ hes => .pure (all hes)
  dsimp only
  split
  · refine (Yields.ofFault (Q := fun _ => True) (fun _ _ => trivial) fun e he => ?_).bind fun names _ =>
      perName names
    unfold Shared.itemsOf at he
    split at he <;> cases he
    exact hitems
  · exact (Yields.pure (Q := fun _ => True) trivial).bind fun names _ => perName names

theorem ownElements_gives {w : World} {C : List String → Prop} (r : Resolver) (m : Entries) (ctx : Context) :
    Gives w C (ownElements r w.shared m ctx) fun _ => True := by
  unfold ownElements
  refine (Yields.optionMapM (R := fun _ => True) fun v _ => loadParser_gives v ctx).bind fun _ _ => ?_
  refine (Yields.optionMapM (R := fun _ => True) fun v _ => loadPlugins_gives r v ctx).bind fun _ _ => ?_
  have element : ∀ plugin extension, Gives w C (processorElement ctx plugin extension) fun _ => True :=
    fun _ _ => (ofProblem_gives (checks_make _ _ _ _ _)).bind fun _ _ => .pure trivial
  refine (processorElements_yields element ⟨by simp, by simp⟩ ⟨by simp, by simp⟩
    (Gives.shared.mono fun _ _ => trivial) _).bind fun _ _ => ?_
  exact (ofProblem_gives (checks_ignorePattern? _ _ _)).bind fun _ _ => .pure trivial

end Cascade.Resolution
