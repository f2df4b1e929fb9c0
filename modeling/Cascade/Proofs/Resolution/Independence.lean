import Cascade.Proofs.Resolution.Accepted

/-! # The elements of a configuration in any session

Every step of resolution agrees with itself under another name, so a whole
resolution does. It gives the same elements in all coherent sessions and leaves
them coherent, also when it fails. -/
namespace Cascade.Resolution

variable {r : Resolver} {w : World} {J : Session → Session → Prop} {same : Prop} {ctx ctx' : Context}

theorem ofProblem_agrees {α : Type} {g : Context → Except Problem α} {R : α → α → Prop}
    (hg : ∀ c name a, g c = .ok a → ∃ b, g (c.named name) = .ok b ∧ ((same → c.name = name) → R a b))
    (h : Renamed same ctx ctx') :
    Agrees J same (Action.ofProblem (g ctx)) (Action.ofProblem (g ctx')) R := by
  have hm := matches_of_renamed hg h
  refine Agree.ofProblem ?_
  revert hm
  cases g ctx <;> cases g ctx' <;> intro hm
  · exact fun hsame => congrArg Failure.problem (hm hsame)
  · exact hm
  · exact hm
  · exact hm

/-- A check whose result does not depend on the name at all. -/
theorem check_agrees {α : Type} {g : Context → Except Problem α}
    (hg : ∀ c name a, g c = .ok a → g (c.named name) = .ok a) (h : Renamed same ctx ctx') :
    Agrees J same (Action.ofProblem (g ctx)) (Action.ofProblem (g ctx')) Eq :=
  ofProblem_agrees (fun c name a ha => ⟨a, hg c name a ha, fun _ => rfl⟩) h

/-! ## Processors -/

theorem processorElement_agrees (plugin extension : String) (h : Renamed same ctx ctx') :
    Agrees J same (processorElement ctx plugin extension) (processorElement ctx' plugin extension)
      (Like same Element.anonymous) := by
  obtain ⟨name, rfl, hname⟩ := h
  unfold processorElement
  refine (Agrees.ofProblem _).bind fun criteria _ heq => ?_
  subst heq
  refine .pure ⟨rfl, fun hsame => ?_⟩
  rw [Context.named, hname hsame]

theorem processorElements_anonymous (ctx : Context) (plugins : List (String × Dependency)) :
    processorElements ctx (Node.anonymousPlugins plugins) = processorElements ctx plugins := by
  unfold processorElements Node.anonymousPlugins
  congr 1
  funext store
  rw [List.mapM_map]
  rfl

theorem extensionElements_agrees (plugin : String) (name : Value) (h : Renamed same ctx ctx') :
    Agrees J same (extensionElements ctx plugin name) (extensionElements ctx' plugin name)
      (Like same (List.map Element.anonymous)) := by
  cases name with
  | str extension =>
    rw [extensionElements, extensionElements]
    by_cases hd : Text.startsWith extension "." = true
    · rw [if_pos hd, if_pos hd]
      exact (processorElement_agrees plugin extension h).bind fun _ _ he => .pure (he.cons (.refl _))
    · rw [if_neg hd, if_neg hd]
      exact .pure (.refl _)
  | _ => exact .throw fun _ => rfl

theorem processorElements_agrees (hj : Interchangeable r w J) {plugins plugins' : List (String × Dependency)}
    (h : Renamed same ctx ctx') (hp : Like same Node.anonymousPlugins plugins plugins') :
    Agrees J same (processorElements ctx plugins) (processorElements ctx' plugins')
      (Like same (List.map Element.anonymous)) := by
  rw [← processorElements_anonymous ctx plugins, hp.erased, processorElements_anonymous]
  unfold processorElements
  refine hj.agrees_shared.bind fun _ _ heq => ?_
  obtain ⟨rfl, rfl⟩ := heq
  refine (Agree.mapM fun p _ => ?_).bind fun _ _ hs => .pure hs.flatten
  have perName : ∀ names : List Value, Agrees J same
      (do return (← names.mapM (extensionElements ctx p.1)).flatten)
      (do return (← names.mapM (extensionElements ctx' p.1)).flatten)
      (Like same (List.map Element.anonymous)) := by
    intro names
    exact (Agree.mapM fun name _ => extensionElements_agrees p.1 name h).bind fun _ _ hs =>
      .pure hs.flatten
  dsimp only
  split
  · refine (Agrees.ofFault _).bind fun names _ heq => ?_
    subst heq
    exact perName names
  · refine (Agree.pure (R := Eq) rfl).bind fun names _ heq => ?_
    subst heq
    exact perName names

/-! ## One configuration -/

/-- What extending gives in two runs. -/
def ExtendedAgree (J : Session → Session → Prop) (same : Prop)
    (extended extended' : String → Context → Action (List Element)) : Prop :=
  ∀ reference ctx ctx', Renamed same ctx ctx' → Agrees J same (extended reference ctx)
    (extended' reference ctx') (Like same (List.map Element.anonymous))

theorem like_getD {plugins plugins' : Option (List (String × Dependency))}
    (h : Like same (Option.map Node.anonymousPlugins) plugins plugins') :
    Like same Node.anonymousPlugins (plugins.getD []) (plugins'.getD []) := by
  refine ⟨?_, fun hsame => by rw [h.equal hsame]⟩
  have herased := h.erased
  cases plugins with
  | none => cases plugins' with
    | none => rfl
    | some _ => cases herased
  | some _ => cases plugins' with
    | none => cases herased
    | some _ => exact Option.some.inj herased

theorem ownElements_agrees (hj : Interchangeable r w J) (m : Entries) (h : Renamed same ctx ctx') :
    Agrees J same (ownElements r w.shared m ctx) (ownElements r w.shared m ctx')
      (Like same (List.map Element.anonymous)) := by
  unfold ownElements
  refine (Agree.optionMapM fun v _ => loadParser_agrees hj v h).bind fun parser parser' hparser => ?_
  refine (Agree.optionMapM fun v _ => loadPlugins_agrees hj v h).bind fun plugins plugins' hplugins => ?_
  refine (processorElements_agrees hj h (like_getD hplugins)).bind fun processors processors' hprocs => ?_
  refine (check_agrees (g := ignorePattern? w.shared m)
    (fun c name _ hc => ignorePattern?_named hc name) h).bind fun pattern _ heq => .pure ?_
  subst heq
  obtain ⟨name, rfl, hname⟩ := h
  refine hprocs.append (.cons ⟨?_, fun hsame => ?_⟩ (.refl []))
  · simp only [Element.anonymous, Node.anonymous, hparser.erased, hplugins.erased]
    rfl
  · rw [hparser.equal hsame, hplugins.equal hsame, Context.named, hname hsame]

theorem overrideContext_agrees (override : Value) (i : Nat) (h : Renamed same ctx ctx') :
    Agrees J same (Action.ofProblem (overrideContext w.shared override (ctx.atOverride i)))
      (Action.ofProblem (overrideContext w.shared override (ctx'.atOverride i))) (Renamed same) := by
  refine ofProblem_agrees (g := overrideContext w.shared override) ?_ ?_
  · intro c name c' hc
    refine ⟨c'.named name, overrideContext_named hc name, fun hn => ⟨name, rfl, fun hsame => ?_⟩⟩
    obtain ⟨_, _, _, -, -, -, rfl⟩ := overrideContext_eq_ok.mp hc
    exact hn hsame
  · obtain ⟨name, rfl, hname⟩ := h
    refine ⟨(ctx.named name).name ++ "#overrides[" ++ toString i ++ "]", rfl, fun hsame => ?_⟩
    rw [Context.atOverride, Context.named, hname hsame]

theorem elements_agrees (hj : Interchangeable r w J) {extended extended' : String → Context → Action (List Element)}
    (hx : ExtendedAgree J same extended extended') (depth : Nat) (config : Value)
    (h : Renamed same ctx ctx') : Agrees J same (elements r extended depth config ctx)
      (elements r extended' depth config ctx') (Like same (List.map Element.anonymous)) := by
  induction depth generalizing config ctx ctx' with
  | zero => exact .throw fun _ => rfl
  | succ depth ih =>
    unfold elements
    refine hj.agrees_shared.bind fun _ _ heq => ?_
    obtain ⟨rfl, rfl⟩ := heq
    cases w.shared.view config with
    | mapping m =>
      dsimp only
      refine (check_agrees (g := checkMembers w.shared m)
        (fun c name _ hc => checkMembers_named name hc) h).bind fun _ _ _ => ?_
      refine (check_agrees (g := references w.shared m)
        (fun c name _ hc => references_named hc name) h).bind fun names _ heq => ?_
      subst heq
      refine (Agree.mapM fun reference _ => hx reference ctx ctx' h).bind fun outer outer' houter => ?_
      refine (ownElements_agrees hj m h).bind fun own own' hown => ?_
      refine (check_agrees (g := overrides w.shared m)
        (fun c name _ hc => overrides_named hc name) h).bind fun items _ heq => ?_
      subst heq
      refine (Agree.mapM fun item _ => ?_).bind fun inner inner' hinner =>
        .pure ((houter.flatten.append hown).append hinner.flatten)
      exact (overrideContext_agrees item.1 item.2 h).bind fun c c' hc => ih item.1 hc
    | _ => exact .throw fun hsame => by obtain ⟨name, rfl, hname⟩ := h; rw [Context.named, hname hsame]

theorem elementsTo_agrees (hj : Interchangeable r w J) {load load' : Loader} (hl : LoadersAgree J same load load')
    (steps : Nat) (config : Value) (h : Renamed same ctx ctx') :
    Agrees J same (elementsTo r load steps config ctx) (elementsTo r load' steps config ctx')
      (Like same (List.map Element.anonymous)) := by
  induction steps generalizing config ctx ctx' with
  | zero => exact .throw fun _ => rfl
  | succ steps ih =>
    unfold elementsTo
    refine hj.agrees_shared.bind fun _ _ heq => ?_
    obtain ⟨rfl, rfl⟩ := heq
    refine elements_agrees hj (fun reference c c' hc => ?_) _ config h
    refine (hl reference c c' hc).bind fun e e' he => ?_
    obtain ⟨config, c⟩ := e
    obtain ⟨config', c'⟩ := e'
    obtain ⟨rfl, hc⟩ := he
    exact ih config hc

/-! ## Whole resolutions -/

theorem settled_of_agrees {α : Type} {a : Action α} {R : α → α → Prop} (h : Agrees (CoherentPair r w) True a a R)
    (hr : ∀ x y, R x y → x = y) : Settled r w a := by
  intro s hs
  obtain ⟨⟨hs', -⟩, hm⟩ := h s _ ⟨hs, Session.coherent_start r w⟩
  refine ⟨hs', ?_⟩
  unfold Action.outcome
  revert hm
  cases (a.runFrom s).1 <;> cases (a.runFrom (Session.start w)).1 <;> intro hm
  · exact congrArg Except.error (hm trivial)
  · exact False.elim hm
  · exact False.elim hm
  · exact congrArg Except.ok (hr _ _ hm)

theorem elementsTo_settled (hw : w.ModulesApart) {load : Loader} (hl : LoadersAgree (CoherentPair r w) True load load)
    (steps : Nat) (config : Value) (ctx : Context) : Settled r w (elementsTo r load steps config ctx) :=
  settled_of_agrees (elementsTo_agrees hw.interchangeable hl steps config (.refl ctx)) fun _ _ h => h.equal trivial

theorem resolveWith_settled (hw : w.ModulesApart) {load : Loader} (hl : LoadersAgree (CoherentPair r w) True load load)
    (config : Value) (name : String) (file : Option Path) :
    Settled r w (r.resolveWith load config name file) := by
  unfold Resolver.resolveWith
  refine Settled.world.bind fun w' hw' => ?_
  obtain rfl : w = w' := Except.ok.inj hw'
  cases file with
  | none => exact (Settled.pure _).bind fun _ _ => elementsTo_settled hw hl _ _ _
  | some p =>
    refine Settled.bind ?_ fun path _ => elementsTo_settled hw hl _ _ _
    exact (Settled.ofFault _).bind fun _ _ => .pure _

theorem resolve_settled (hw : w.ModulesApart) (config : Value) (name : String) (file : Option Path) :
    Settled r w (r.resolve config name file) :=
  resolveWith_settled hw (loadExtended_agrees hw.interchangeable) config name file

theorem resolveFile_settled (hw : w.ModulesApart) (file : Path) : Settled r w (r.resolveFile file) := by
  unfold Resolver.resolveFile
  refine (Settled.debug _ _).bind fun _ _ => ?_
  exact (fileConfig_settled _).bind fun _ _ => resolve_settled hw _ _ _

end Cascade.Resolution
