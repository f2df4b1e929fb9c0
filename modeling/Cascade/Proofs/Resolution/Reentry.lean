import Cascade.Proofs.Resolution.Freshness
import Cascade.Proofs.Resolution.Termination

/-! # What a reported cycle of configurations is

When a cycle is reported, the references that were followed have led to an origin
whose identity is that of an earlier origin, which is still being resolved. It is
the earlier one again, or it is confused with it: a package of the same name that
is found in another place, or a plugin of the same shortest name. -/
namespace Cascade.Resolution

variable {r : Resolver} {w : World} {start : Extended}

/-- The references of a configuration, none if it is not accepted. -/
def referencesOf (w : World) (e : Extended) : List String :=
  match w.shared.view e.1 with
  | .mapping m => (references w.shared m e.2).toOption.getD []
  | _ => []

theorem mem_referencesOf {e : Extended} {reference : String} :
    reference ∈ referencesOf w e ↔ ∃ m names, w.shared.view e.1 = .mapping m ∧
      references w.shared m e.2 = .ok names ∧ reference ∈ names := by
  unfold referencesOf
  constructor
  · intro h
    split at h
    · rename_i m hm
      cases hn : references w.shared m e.2 with
      | ok names => exact ⟨m, names, hm, hn, by rwa [hn] at h⟩
      | error p => rw [hn] at h; cases h
    · cases h
  · rintro ⟨m, names, hm, hn, hmem⟩
    rw [hm]
    simp only [hn]
    exact hmem

/-- The configurations that are entered from one, and the origins on the way. -/
inductive Entered (r : Resolver) (w : World) (start : Extended) : List Origin → Extended → Prop where
  | start : Entered r w start [] start
  | override {trail : List Origin} {config override : Value} {ctx ctx' : Context} {m : Entries}
      {items : List Value} {i : Nat} : Entered r w start trail (config, ctx) →
      w.shared.view config = .mapping m → overrides w.shared m ctx = .ok items → override ∈ items →
      overrideContext w.shared override (ctx.atOverride i) = .ok ctx' →
      Entered r w start trail (override, ctx')
  | reference {trail : List Origin} {e next : Extended} {reference : String} {origin : Origin}
      {s t : Session} : Entered r w start trail e → reference ∈ referencesOf w e →
      originOf? w reference e.2.directory = some origin → s.Sourced w →
      (loadExtended r reference e.2).runFrom s = (.ok next, t) → Entered r w start (trail ++ [origin]) next

/-- A chain that is reported, because a reference in a configuration that was entered
leads to an origin which has the identity of an earlier one. -/
def Reenters (r : Resolver) (w : World) (start : Extended) (entered : List Origin)
    (chain : List String) : Prop :=
  ∃ trail e reference origin, Entered r w start trail e ∧ reference ∈ referencesOf w e ∧
    originOf? w reference e.2.directory = some origin ∧
    ∃ before earlier between, entered ++ trail = before ++ earlier :: between ∧
      chain = (earlier :: between ++ [origin]).map Origin.identity ∧
      (earlier = origin ∨ earlier.Confused origin)

/-! ## The chain along the way -/

section
variable {texts : List String} {entered trail : List Origin} {e : Extended}

theorem referencesOf_found (hcov : Covers w texts) (h : Probe.texts.found e.1 ⊆ texts) :
    referencesOf w e ⊆ texts := by
  intro reference href
  obtain ⟨m, names, hm, hn, hmem⟩ := mem_referencesOf.mp href
  exact references_found hcov hm h hn hmem

/-- The chain has the identities of the origins on the way, which are proper. -/
theorem Entered.chain (hcov : Covers w texts) (hf : Probe.texts.found start.1 ⊆ texts)
    (hc : start.2.chain = entered.map Origin.identity) (hp : ∀ origin ∈ entered, origin.Proper)
    (h : Entered r w start trail e) : Probe.texts.found e.1 ⊆ texts ∧
      e.2.chain = (entered ++ trail).map Origin.identity ∧ ∀ origin ∈ entered ++ trail, origin.Proper := by
  induction h with
  | start => exact ⟨hf, by rw [hc, List.append_nil], by simpa using hp⟩
  | override _ hm ho hmem hctx ih =>
    obtain ⟨hf, hc, hp⟩ := ih
    obtain ⟨_, _, _, -, -, -, rfl⟩ := overrideContext_eq_ok.mp hctx
    exact ⟨found_override hcov (overrideOf_of_mem hm ho hmem) hf, hc, hp⟩
  | @reference trail e next reference origin s t _ href horigin hs hrun ih =>
    obtain ⟨hf, hc, hp⟩ := ih
    have hext := extension_of_load hcov (referencesOf_found hcov hf href) hs (congrArg Prod.fst hrun)
    obtain ⟨origin', horigin', -, -, hgrown⟩ := hext.origin
    cases horigin.symm.trans horigin'
    refine ⟨hext.content, ?_, ?_⟩
    · rw [hgrown, hc, ← List.map_singleton, ← List.map_append, List.append_assoc]
    · rw [← List.append_assoc]
      exact List.forall_mem_append.mpr ⟨hp, by simpa using originOf?_proper horigin⟩

/-- What is found on the chain has been entered before. -/
theorem Entered.closes (hcov : Covers w texts) (hf : Probe.texts.found start.1 ⊆ texts)
    (hc : start.2.chain = entered.map Origin.identity) (hp : ∀ origin ∈ entered, origin.Proper)
    (h : Entered r w start trail e) {reference : String} (href : reference ∈ referencesOf w e) :
    Closes w (Reenters r w start entered) reference e.2 := by
  intro origin horigin hidentity
  obtain ⟨-, hchain, hproper⟩ := h.chain hcov hf hc hp
  obtain ⟨before, after, hsplit, hdrop⟩ := dropWhile_of_mem hidentity
  rw [hchain] at hsplit
  obtain ⟨first, rest, heq, -, hrest⟩ := List.map_eq_append_iff.mp hsplit
  obtain ⟨earlier, between, rfl, hsame, rfl⟩ := List.map_eq_cons_iff.mp hrest
  refine ⟨trail, e, reference, origin, h, href, horigin, first, earlier, between, heq, ?_, ?_⟩
  · rw [hdrop, List.map_append, List.map_cons, hsame, List.map_singleton]
  · exact Origin.eq_or_confused (hproper earlier (by rw [heq]; simp)) (originOf?_proper horigin) hsame

end

/-! ## Following the references -/

/-- A failure that reports only chains of a certain kind as cycles. -/
def Reports (C : List String → Prop) (e : Failure) : Prop :=
  ∀ chain, e = .problem (.extendsCycle chain) → C chain

section
variable {texts : List String} {entered : List Origin} {C : List String → Prop}

theorem reports_of_gives {α : Type} {a : Action α} {Q : α → Prop} (h : Gives w C a Q) :
    Yields (Session.Sourced w) (Reports C) a Q := h.weaken fun _ he => he.cycle

/-- A configuration that is entered reports what its references report. -/
theorem elements_reports {extended : String → Context → Action (List Element)}
    (hext : ∀ trail e reference, Entered r w start trail e → reference ∈ referencesOf w e →
      Yields (Session.Sourced w) (Reports C) (extended reference e.2) fun _ => True)
    {depth : Nat} {trail : List Origin} {config : Value} {ctx : Context}
    (h : Entered r w start trail (config, ctx)) :
    Yields (Session.Sourced w) (Reports C) (elements r extended depth config ctx) fun _ => True := by
  induction depth generalizing config ctx with
  | zero => exact .throw fun _ he => nomatch he
  | succ depth ih =>
    unfold elements
    refine (reports_of_gives Gives.shared).bind fun store hs => ?_
    subst hs
    split
    · rename_i m hm
      refine (reports_of_gives (ofProblem_gives (checks_checkMembers _ _ _))).bind fun _ _ => ?_
      refine (reports_of_gives (ofProblem_gives (checks_references _ _ _))).bind fun names hn => ?_
      refine (Yields.mapM (R := fun _ => True) fun name hname =>
        hext trail _ name h (mem_referencesOf.mpr ⟨m, names, hm, hn, hname⟩)).bind fun _ _ => ?_
      refine (reports_of_gives (ownElements_gives r m ctx)).bind fun _ _ => ?_
      refine (reports_of_gives (ofProblem_gives (checks_overrides _ _ _))).bind fun items ho => ?_
      refine (Yields.mapM (R := fun _ => True) fun override hover => ?_).bind fun _ _ => .pure trivial
      obtain ⟨o, i⟩ := override
      have hmem : o ∈ items := (List.mem_zipIdx' hover).2 ▸ List.getElem_mem _
      refine (reports_of_gives (ofProblem_gives (checks_overrideContext _ _ _))).bind fun ctx' hctx => ?_
      exact ih (.override h hm ho hmem hctx)
    · exact .throw fun _ he => nomatch he

theorem elementsTo_reports (hcov : Covers w texts) (hf : Probe.texts.found start.1 ⊆ texts)
    (hc : start.2.chain = entered.map Origin.identity) (hp : ∀ origin ∈ entered, origin.Proper)
    {steps : Nat} {trail : List Origin} {config : Value} {ctx : Context}
    (h : Entered r w start trail (config, ctx)) :
    Yields (Session.Sourced w) (Reports (Reenters r w start entered))
      (elementsTo r (loadExtended r) steps config ctx) fun _ => True := by
  induction steps generalizing trail config ctx with
  | zero => exact .throw fun _ he => nomatch he
  | succ steps ih =>
    unfold elementsTo
    refine (reports_of_gives Gives.shared).bind fun store _ => ?_
    refine elements_reports (fun trail e reference h href => ?_) h
    have hload := loadExtended_gives hcov r (referencesOf_found hcov (h.chain hcov hf hc hp).1 href)
      (h.closes hcov hf hc hp href)
    refine (reports_of_gives hload).ran.bind fun next hnext => ?_
    obtain ⟨hext, s, t, hs, hrun⟩ := hnext
    obtain ⟨origin, horigin, -⟩ := hext.origin
    exact ih (.reference h href horigin hs hrun)

end

/-- The origins that a resolution starts with: that of the file, if there is one. -/
def startOrigins (path : Option Path) : List Origin := path.toList.map fun p => .path p.text

theorem resolveOption_gives {C : List String → Prop} (file : Option Path) :
    Gives w C (file.mapM fun p => Action.ofFault (w.resolve p)) fun path =>
      file.mapM w.resolve = .ok path ∧ ∀ p ∈ path, p.IsResolved := by
  cases file with
  | none => exact Yields.pure ⟨rfl, by simp⟩
  | some p =>
    refine Yields.bind (resolve_gives p) fun q hq => .pure ⟨?_, by simpa using hq.2⟩
    rw [Option.mapM_some, hq.1]
    rfl

theorem resolve_reports (r : Resolver) (config : Value) (name : String) (file : Option Path) :
    Yields (Session.Sourced w) (Reports fun chain => ∃ path, file.mapM w.resolve = .ok path ∧
      Reenters r w (config, startContext r name path) (startOrigins path) chain)
      (r.resolve config name file) fun _ => True := by
  unfold Resolver.resolve Resolver.resolveWith
  refine (reports_of_gives Gives.world).bind fun w' hw' => ?_
  subst hw'
  refine (reports_of_gives (resolveOption_gives file)).bind fun path hpath => ?_
  obtain ⟨hfile, hresolved⟩ := hpath
  have hf : Probe.texts.found config ⊆ textsAround w config := fun t ht => by simp [textsAround, ht]
  have hc : (startContext r name path).chain = (startOrigins path).map Origin.identity := by
    cases path <;> rfl
  have hp : ∀ origin ∈ startOrigins path, origin.Proper := by
    intro origin horigin
    obtain ⟨p, hmem, rfl⟩ := List.mem_map.mp horigin
    exact slash_text (hresolved p (Option.mem_toList.mp hmem))
  refine (elementsTo_reports (covers_textsAround w config) hf hc hp .start).weaken fun e he chain hchain => ⟨path, hfile, he chain hchain⟩

/-- A resolution that reports a cycle has entered an origin while an earlier one is
being resolved that is the same, or is confused with it because it has the same
name. The chain that is reported leads from the one to the other. -/
theorem cycle_reentered (r : Resolver) {s : Session} (hs : s.Sourced w) :
    (∀ config name file chain,
      ((r.resolve config name file).runFrom s).1 = .error (.problem (.extendsCycle chain)) →
      ∃ path, file.mapM w.resolve = .ok path ∧
        Reenters r w (config, startContext r name path) (startOrigins path) chain) ∧
    ∀ file chain, ((r.resolveFile file).runFrom s).1 = .error (.problem (.extendsCycle chain)) →
      ∃ m path, ConfigFile.load w (r.base.join file) = .ok m ∧ w.resolve (r.base.join file) = .ok path ∧
        Reenters r w (.mapping m, startContext r (r.base.join file).name (some path)) [.path path.text]
          chain := by
  have reported : ∀ {C : List String → Prop} {a : Action (List Element)},
      Yields (Session.Sourced w) (Reports C) a (fun _ => True) → ∀ chain,
      (a.runFrom s).1 = .error (.problem (.extendsCycle chain)) → C chain := by
    intro C a ha chain hrun
    have := (ha s hs).2
    rw [hrun] at this
    exact this chain rfl
  refine ⟨fun config name file => reported (resolve_reports r config name file), fun file => ?_⟩
  refine reported ?_
  unfold Resolver.resolveFile
  refine (reports_of_gives (Gives.debug _ _)).bind fun _ _ => ?_
  refine (reports_of_gives (fileConfig_gives _)).bind fun config hc => ?_
  obtain ⟨m, hl, rfl⟩ := hc
  refine (resolve_reports r _ _ _).weaken fun e he chain hchain => ?_
  obtain ⟨path, hpath, h⟩ := he chain hchain
  obtain ⟨q, hq, hsome⟩ := bind_eq_ok.mp hpath
  cases hsome
  exact ⟨m, q, hl, hq, h⟩

/-! ## Cycles that there are not -/

/-- What references lead to one after another, in sessions that have loaded
nothing, and the origins on the way. -/
def follow (r : Resolver) (w : World) : List String → List Origin → Extended →
    Option (List Origin × Extended)
  | [], trail, e => some (trail, e)
  | reference :: rest, trail, e =>
    if reference ∈ referencesOf w e then do
      let origin ← originOf? w reference e.2.directory
      let next ← ((loadExtended r reference e.2).outcome w).toOption
      follow r w rest (trail ++ [origin]) next
    else none

theorem entered_of_follow {names : List String} {trail trail' : List Origin} {e e' : Extended}
    (h : Entered r w start trail e) (hf : follow r w names trail e = some (trail', e')) :
    Entered r w start trail' e' := by
  induction names generalizing trail e with
  | nil =>
    cases hf
    exact h
  | cons reference rest ih =>
    rw [follow] at hf
    split at hf
    · rename_i href
      obtain ⟨origin, horigin, hf⟩ := Option.bind_eq_some_iff.mp hf
      obtain ⟨next, hnext, hf⟩ := Option.bind_eq_some_iff.mp hf
      have hrun : (loadExtended r reference e.2).outcome w = .ok next := by
        cases hout : (loadExtended r reference e.2).outcome w with
        | ok found => rw [hout] at hnext; cases hnext; rfl
        | error _ => rw [hout] at hnext; cases hnext
      exact ih (.reference h href horigin (Session.sourced_start w) (Prod.ext hrun rfl)) hf
    · cases hf

/-- The chain of a cycle that is reported. -/
def reported : Except Failure (List Element) → Option (List String)
  | .error (.problem (.extendsCycle chain)) => some chain
  | _ => none

theorem eq_of_reported {x : Except Failure (List Element)} {chain : List String}
    (h : reported x = some chain) : x = .error (.problem (.extendsCycle chain)) := by
  unfold reported at h
  split at h
  · cases h
    rfl
  · cases h

/-- Two packages of the same name, of which one leads to the other. -/
def scatteredWorld : World where
  here := ["work"]
  entries := [
    (["work", "eslint-config-foo.json"], textFile "\x7b\"extends\": \"./sub/x.json\"\x7d"),
    (["work", "sub", "x.json"], textFile "\x7b\"extends\": \"foo\"\x7d"),
    (["work", "sub", "eslint-config-foo.json"], textFile "\x7b\"rules\": \x7b\"curly\": 1\x7d\x7d")]

theorem cycle_reentered_scatteredWorld : (Session.start scatteredWorld).Sourced scatteredWorld ∧
    ((workResolver.resolve (extendsOne "foo") "<input>" none).runFrom (Session.start scatteredWorld)).1 =
      .error (.problem (.extendsCycle ["eslint-config-foo", "/work/sub/x.json", "eslint-config-foo"])) ∧
    Reenters workResolver scatteredWorld (extendsOne "foo", startContext workResolver "<input>" none) []
      ["eslint-config-foo", "/work/sub/x.json", "eslint-config-foo"] := by
  have hs := Session.sourced_start scatteredWorld
  have hrun := eq_of_reported (show reported ((workResolver.resolve (extendsOne "foo") "<input>" none).runFrom
    (Session.start scatteredWorld)).1 = some ["eslint-config-foo", "/work/sub/x.json", "eslint-config-foo"]
    by decide +kernel)
  obtain ⟨path, hpath, h⟩ := (cycle_reentered workResolver hs).1 _ _ _ _ hrun
  cases hpath
  exact ⟨hs, hrun, h⟩

/-- Two plugins of the same shortest name, of which one leads to the other. -/
def scopedWorld : World where
  here := ["work"]
  available := [
    ("scope.eslint_plugin",
      [("configs", .mapping [(.str "c", extendsOne "plugin:eslint-plugin-@scope/c")])]),
    ("eslint_plugin_@scope", [("configs", .mapping [(.str "c", .mapping [ruleOf "curly"])])])]

/-- A cycle that is reported although nothing is entered twice: the last of the
configurations that are entered has one reference, and the origins up to the one
that this leads to are all different. -/
structure Mistaken (w : World) (reference : String) (origins : List Origin) : Prop where
  reported : reported ((workResolver.resolve (extendsOne reference) "<input>" none).runFrom
    (Session.start w)).1 = some (origins.map Origin.identity)
  entered : ∃ trail e last origin,
    Entered workResolver w (extendsOne reference, startContext workResolver "<input>" none) trail e ∧
    referencesOf w e = [last] ∧ originOf? w last e.2.directory = some origin ∧ origins = trail ++ [origin]
  different : origins.Nodup

theorem mistaken_of_follow {reference : String} (names : List String) (last : String) (trail : List Origin)
    (origin : Origin)
    (hr : Resolution.reported ((workResolver.resolve (extendsOne reference) "<input>" none).runFrom
      (Session.start w)).1 = some ((trail ++ [origin]).map Origin.identity))
    (hf : (follow workResolver w names [] (extendsOne reference, startContext workResolver "<input>" none)).map
      (fun x => (x.1, referencesOf w x.2, originOf? w last x.2.2.directory)) =
        some (trail, [last], some origin))
    (hd : (trail ++ [origin]).Nodup) : Mistaken w reference (trail ++ [origin]) := by
  obtain ⟨⟨trail', e⟩, hfollow, heq⟩ := Option.map_eq_some_iff.mp hf
  simp only [Prod.mk.injEq] at heq
  obtain ⟨rfl, hlast, horigin⟩ := heq
  exact ⟨hr, ⟨trail', e, last, origin, entered_of_follow .start hfollow, hlast, horigin, rfl⟩, hd⟩

/-- A cycle is reported for a configuration that leads to another one of its package
name in another directory, which leads nowhere, and for one of a plugin that leads
to one of another plugin. -/
theorem cycle_not_reentered :
    Mistaken scatteredWorld "foo" [.package "eslint-config-foo" (some "/work/eslint-config-foo.json"),
      .path "/work/sub/x.json", .package "eslint-config-foo" (some "/work/sub/eslint-config-foo.json")] ∧
    Resolver.outline ((workResolver.resolve (extendsOne "./sub/eslint-config-foo.json") "<input>" none).runFrom
      (Session.start scatteredWorld)).1 =
        .inr [("<input> » ./sub/eslint-config-foo.json", ["curly"]), ("<input>", [])] ∧
    Mistaken scopedWorld "plugin:@scope/c"
      [.plugin "@scope/eslint-plugin" "c", .plugin "eslint-plugin-@scope" "c"] := by
  refine ⟨?_, by decide +kernel, ?_⟩
  · exact mistaken_of_follow ["foo", "./sub/x.json"] "foo"
      [.package "eslint-config-foo" (some "/work/eslint-config-foo.json"), .path "/work/sub/x.json"]
      (.package "eslint-config-foo" (some "/work/sub/eslint-config-foo.json")) (by decide +kernel) (by decide +kernel) (by decide)
  · exact mistaken_of_follow ["plugin:@scope/c"] "plugin:eslint-plugin-@scope/c"
      [.plugin "@scope/eslint-plugin" "c"] (.plugin "eslint-plugin-@scope" "c") (by decide +kernel) (by decide +kernel) (by decide)

end Cascade.Resolution
