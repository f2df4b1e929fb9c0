import Cascade.Proofs.Resolution.Interference
import Cascade.Proofs.Resolution.Places
import Cascade.Proofs.Resolution.References
import Cascade.Proofs.Resolution.Termination

/-! # Resolutions that fail without a report

In a sound world a resolution gives elements or reports a problem, but for the
references that fail otherwise. Such a reference stands in a configuration that the
resolution has come to, whose place tells where to look for it. -/
namespace Cascade.Resolution

variable {r : Resolver} {w : World} {start : Extended} {ctx : Context} {E : Failure → Prop}

/-! ## The elements of one configuration -/

/-- How a reference of a configuration fails without a report. -/
inductive ConfigFails (r : Resolver) (w : World) (m : Entries) (ctx : Context) (e : Failure) : Prop where
  | plugin {v : Value} {name : String} : given? w.shared m "plugins" = some v → name ∈ pluginNames w.shared v →
      PackageFails w Package.pluginKind name r.pluginBase e → ConfigFails r w m ctx e
  | parser {name : String} : given? w.shared m "parser" = some (.str name) →
      ParserFails w ctx.directory name e → ConfigFails r w m ctx e
  | reference {names : List String} {reference : String} : references w.shared m ctx = .ok names →
      reference ∈ names → ReferenceFails r w ctx.directory reference e → ConfigFails r w m ctx e

theorem ofProblem_runs {α : Type} {Pre : Session → Prop} (x : Except Problem α) :
    Runs Pre (Action.ofProblem x) (fun y t => Pre t ∧ x = .ok y) (Amiss w E) :=
  .ofProblem fun p _ _ _ => .inl ⟨p, rfl⟩

/-- A session in which some plugin is not as it should be. -/
def Spoiled (w : World) (s : Session) : Prop := ∃ p ∈ s.plugins, ¬ WellShaped w.shared p.2.1

theorem extensionElements_runs {s : Session} (ctx : Context) (plugin : String) {name : Value}
    (h : Spoiled w s ∨ ∃ text, name = .str text) :
    Runs (· = s) (extensionElements ctx plugin name) (fun _ t => t = s) (Amiss w E) := by
  unfold extensionElements
  split
  · split
    · refine Runs.bind (Q := fun _ t => t = s) ?_ fun e => .pure fun _ ht => ht
      exact (ofProblem_runs _).bind fun criteria => .pure fun _ ht => ht.1
    · exact .pure fun _ ht => ht
  · rename_i hname
    refine .throw fun t ht => ?_
    subst ht
    rcases h with hspoiled | ⟨text, htext⟩
    · exact .inr (.inr hspoiled)
    · exact absurd htext (hname text)

theorem processorElements_runs (ctx : Context) (plugins : List (String × Dependency))
    (loaded : List (String × Entries × Option Path)) :
    Runs (fun s => s.Holds w loaded ∧ ∀ p ∈ plugins, IsLoaded s p.2) (processorElements ctx plugins)
      (fun _ t => t.Holds w loaded) (Amiss w E) := by
  unfold processorElements
  refine Runs.shared.bind fun store => Runs.of_session fun s hs => ?_
  obtain ⟨rfl, hs, hplugins⟩ := hs
  refine (Runs.mapM (I := (· = s)) fun p hp => ?_).bind fun perPlugin => .pure fun t ht => ht ▸ hs
  obtain ⟨entry, hentry, hdefinition⟩ := hplugins p hp
  have perName : ∀ names : List Value, (Spoiled w s ∨ ∀ name ∈ names, ∃ text, name = .str text) →
      Runs (· = s) (do return (← names.mapM (extensionElements ctx p.1)).flatten) (fun _ t => t = s) (Amiss w E) :=
    fun names hnames => (Runs.mapM fun name hname =>
      extensionElements_runs ctx p.1 (hnames.imp_right fun h => h name hname)).bind fun _ => .pure fun _ ht => ht
  dsimp only
  rw [hdefinition, hs.world]
  split
  · rename_i htruthy
    by_cases hshape : WellShaped w.shared entry.2.1
    · obtain ⟨texts, htexts⟩ := hshape.processors htruthy
      rw [htexts]
      refine (Runs.ofFault (x := .ok (texts.map Value.str)) fun f hf => nomatch hf).bind fun names => ?_
      refine Runs.assuming fun hnames => perName names (.inr fun name hname => ?_)
      cases hnames
      obtain ⟨text, -, rfl⟩ := List.mem_map.mp hname
      exact ⟨text, rfl⟩
    · have hspoiled : Spoiled w s := ⟨entry, hentry, hshape⟩
      refine (Runs.ofFault fun f _ t ht => .inr (.inr (ht ▸ hspoiled))).bind fun names => ?_
      exact Runs.assuming fun _ => perName names (.inl hspoiled)
  · exact (Runs.pure (Q := fun names t => t = s ∧ names = []) fun _ ht => ⟨ht, rfl⟩).bind fun names =>
      Runs.assuming fun hnames => perName names (.inr (by simp [hnames]))

theorem ownElements_runs (hw : w.Sound) (r : Resolver) (m : Entries) {ctx : Context}
    (hd : ctx.directory.hasNul = false) (loaded : List (String × Entries × Option Path)) :
    Runs (Session.Holds w loaded) (ownElements r w.shared m ctx) (fun _ t => t.Holds w loaded)
      (Amiss w (ConfigFails r w m ctx)) := by
  unfold ownElements
  have hparser : Runs (Session.Holds w loaded) ((given? w.shared m "parser").mapM fun v => loadParser v ctx)
      (fun _ t => t.Holds w loaded) (Amiss w (ConfigFails r w m ctx)) := by
    refine (Runs.optionMapM (Q := fun _ _ => True) fun v hv => ?_).imp (fun _ hs => hs) (fun _ _ ht => ht.1)
      fun _ _ he => he
    have htruthy : w.shared.truthy v = true := (Option.mem_filter_iff.mp hv).2
    refine runs_of_loading (loadParser_loading hw htruthy hd) (fun e he => he.imp_right fun hfails => ?_) loaded
    obtain ⟨name, rfl, hfails⟩ := hfails
    exact .parser hv hfails
  refine hparser.bind fun parser => ?_
  have hplugins : Runs (Session.Holds w loaded) ((given? w.shared m "plugins").mapM fun v => loadPlugins r v ctx)
      (fun plugins t => t.Holds w loaded ∧ ∀ ps ∈ plugins, ∀ p ∈ ps, IsLoaded t p.2)
      (Amiss w (ConfigFails r w m ctx)) := by
    refine Runs.optionMapM fun v hv => (loadPlugins_runs hw r v ctx loaded).weaken fun e _ he => he.mono fun he => ?_
    obtain ⟨name, hname, he⟩ := he
    exact .plugin hv hname he
  refine hplugins.bind fun plugins => ?_
  refine ((processorElements_runs ctx (plugins.getD []) loaded).require fun t ht => ⟨ht.1, ?_⟩).bind
    fun processors => ?_
  · cases plugins with
    | none => simp
    | some ps => exact ht.2 ps rfl
  · exact (ofProblem_runs _).bind fun pattern => .pure fun _ ht => ht.1

/-! ## The two recursions -/

/-- How a resolution fails without a report: it does not come to an end, or a reference
fails so in a configuration at some place. -/
def Escapes (r : Resolver) (w : World) (start : Extended) (e : Failure) : Prop :=
  e = .fault .endless ∨ ∃ route here m, Stands r w start route here ∧ w.shared.view here.1 = .mapping m ∧
    ConfigFails r w m here.2 e

theorem elements_runs (hw : w.Sound) {extended : String → Context → Action (List Element)}
    (hx : ∀ name (ctx : Context), ctx.directory.hasNul = false →
      (∀ next, Loads r w name ctx next → ∃ route, Stands r w start route next) →
      Runs (Session.Holds w []) (extended name ctx) (fun _ t => t.Holds w [])
        (Amiss w fun e => ReferenceFails r w ctx.directory name e ∨ Escapes r w start e))
    (depth : Nat) {route : Route} {config : Value} {ctx : Context} (h : Stands r w start route (config, ctx))
    (hd : ctx.directory.hasNul = false) :
    Runs (Session.Holds w []) (elements r extended depth config ctx) (fun _ t => t.Holds w [])
      (Amiss w (Escapes r w start)) := by
  induction depth generalizing route config ctx with
  | zero => exact .throw fun _ _ => .inr (.inl (.inl rfl))
  | succ depth ih =>
    unfold elements
    refine (runs_of_loading (fun _ => Loading.shared) (fun _ he => he) []).bind fun store => ?_
    refine Runs.assuming fun hstore => ?_
    subst hstore
    split
    · rename_i m hm
      refine (ofProblem_runs _).bind fun _ => Runs.assuming fun _ => ?_
      refine (ofProblem_runs _).bind fun names => Runs.assuming fun hnames => ?_
      refine (Runs.mapM fun name hname => ?_).bind fun outer => ?_
      · obtain ⟨place, hplace⟩ := List.mem_iff_getElem?.mp hname
        have hruns := hx name ctx hd fun next hnext => ⟨_, h.next (.reference hm hnames hplace hnext)⟩
        refine hruns.weaken fun e _ he => he.mono fun he => ?_
        exact he.elim (fun he => .inr ⟨route, _, m, h, hm, .reference hnames hname he⟩) id
      refine ((ownElements_runs hw r m hd []).weaken fun e _ he =>
        he.mono fun hfails => .inr ⟨route, _, m, h, hm, hfails⟩).bind fun own => ?_
      refine (ofProblem_runs _).bind fun items => Runs.assuming fun hitems => ?_
      refine (Runs.mapM fun item hitem => ?_).bind fun inner => .pure fun _ ht => ht
      obtain ⟨override, place⟩ := item
      have hat : items[place]? = some override := List.mk_mem_zipIdx_iff_getElem?.mp hitem
      refine (ofProblem_runs _).bind fun next => Runs.assuming fun hnext => ?_
      obtain ⟨_, _, _, -, -, -, hctx⟩ := overrideContext_eq_ok.mp hnext
      exact ih (h.next (.override hm hitems hat hnext)) (by rw [hctx]; exact hd)
    · exact .throw fun _ _ => .inl ⟨_, rfl⟩

theorem elementsTo_runs (hw : w.Sound) (steps : Nat) {route : Route} {config : Value} {ctx : Context}
    (h : Stands r w start route (config, ctx)) (hd : ctx.directory.hasNul = false) :
    Runs (Session.Holds w []) (elementsTo r (loadExtended r) steps config ctx) (fun _ t => t.Holds w [])
      (Amiss w (Escapes r w start)) := by
  induction steps generalizing route config ctx with
  | zero => exact .throw fun _ _ => .inr (.inl (.inl rfl))
  | succ steps ih =>
    unfold elementsTo
    refine (runs_of_loading (fun _ => Loading.shared) (fun _ he => he) []).bind fun store => ?_
    refine Runs.assuming fun _ => elements_runs hw (fun name ctx hd hnext => ?_) _ h hd
    refine ((loadExtended_runs hw r name hd []).ran.weaken fun e _ he =>
      he.mono .inl).bind fun next => Runs.assuming fun hran => Runs.assuming fun hnul => ?_
    obtain ⟨s, t, hs, hrun⟩ := hran
    obtain ⟨route, hstands⟩ := hnext next ⟨s, t, hs.world, hrun⟩
    exact (ih hstands hnul).weaken fun e _ he => he.mono .inr

/-! ## Resolutions -/

theorem resolve_runs (hw : w.Sound) (hbase : r.base.hasNul = false) (config : Value) (name : String)
    {file : Option Path} (hfile : ∀ p ∈ file, p.hasNul = false) :
    ∃ path, file.mapM w.resolve = .ok path ∧
      Runs (Session.Holds w []) (r.resolve config name file) (fun _ t => t.Holds w [])
        (Amiss w (Escapes r w (config, startContext r name path))) := by
  have hresolved : ∃ path, file.mapM w.resolve = .ok path ∧ ∀ p ∈ path, p.hasNul = false := by
    cases file with
    | none => exact ⟨none, rfl, by simp⟩
    | some p =>
      obtain ⟨q, hq⟩ := hw.exists_resolve (hfile p rfl)
      refine ⟨some q, by rw [Option.mapM_some, hq]; rfl, fun p hp => ?_⟩
      cases hp
      exact Path.hasNul_of_resolve hq
  obtain ⟨path, hpath, hnul⟩ := hresolved
  refine ⟨path, hpath, ?_⟩
  unfold Resolver.resolve Resolver.resolveWith
  refine (runs_of_loading (fun _ => Loading.world) (fun _ he => he) []).bind fun _ => ?_
  refine Runs.assuming fun hworld => ?_
  subst hworld
  refine (Runs.optionMapM_ofFault hpath).bind fun found => Runs.assuming fun hfound => ?_
  subst hfound
  refine elementsTo_runs hw _ .start ?_
  cases found with
  | none => exact hbase
  | some q => exact Path.hasNul_parent (hnul q rfl)

/-- A resolution in a sound world, whose configurations are finite and all of whose
plugins turn out to be as they should be, gives elements or reports a problem, or it
comes to a configuration at some place that has a reference of a certain kind: to a
package whose scope is lacking, by a path with a NUL in it, or to a parser in a file
that is no module. -/
theorem resolve_fails_reported (r : Resolver) (hw : w.Sound) (hfinite : w.FiniteConfigs) {config : Value}
    (hconfig : w.shared.IsTree config) (name : String) {file : Option Path} (hbase : r.base.hasNul = false)
    (hfile : ∀ p ∈ file, p.hasNul = false) {s t : Session} (hs : s.Sourced w) (hplaced : s.Placed w)
    {result : Except Failure (List Element)} (hrun : (r.resolve config name file).runFrom s = (result, t))
    (hplugins : ∀ p ∈ t.plugins, WellShaped w.shared p.2.1) :
    ∃ path, file.mapM w.resolve = .ok path ∧
      ((∃ es, result = .ok es) ∨ (∃ p, result = .error (.problem p)) ∨
        ∃ e, result = .error e ∧ ∃ route here m, Stands r w (config, startContext r name path) route here ∧
          w.shared.view here.1 = .mapping m ∧ ConfigFails r w m here.2 e) := by
  obtain ⟨path, hpath, hruns⟩ := resolve_runs hw hbase config name hfile
  refine ⟨path, hpath, ?_⟩
  have houtcome := hruns.outcome s ⟨hplaced, List.nil_subset _⟩
  have hended := (resolve_gives_elements r hfinite hconfig name file s hs).2
  rw [hrun] at houtcome hended
  cases result with
  | ok es => exact .inl ⟨es, rfl⟩
  | error e =>
    rcases houtcome with ⟨p, rfl⟩ | (rfl | hfails) | ⟨p, hp, hshape⟩
    · exact .inr (.inl ⟨p, rfl⟩)
    · obtain ⟨p, hload⟩ := hended.ended rfl
      exact absurd hload (hw.readable p _)
    · exact .inr (.inr ⟨e, rfl, hfails⟩)
    · exact absurd (hplugins p hp) hshape

/-! A world without files, in which nothing is found. -/

def bareWorld : World where
  here := ["work"]

theorem configsAlone_bareWorld : ConfigsAlone bareWorld := by
  have defines : ∀ members, bareWorld.Defines members → members = [] := by
    intro members h
    rcases h with rfl | ⟨names, hm⟩ | ⟨name, hm⟩
    · rfl
    · cases hm
    · cases hm
  refine ⟨rfl, fun members hd name _ => ?_, fun members v hd hl => ?_⟩
  · rw [defines members hd]
    rfl
  · rw [defines members hd] at hl
    cases hl

theorem sound_bareWorld : bareWorld.Sound where
  here := by decide
  entries := by
    intro e he
    cases he
  readable := by
    intro p f h
    rw [configsAlone_bareWorld.load_missing] at h
    cases h
  runs := by
    intro names run h
    cases h

/-- A configuration that lists the sign of a scope as a plugin. -/
def signPlugin : Value := .mapping [(.str "plugins", .list [.str "@"])]

theorem resolve_fails_reported_bareWorld : bareWorld.Sound ∧ bareWorld.FiniteConfigs ∧ bareWorld.shared.IsTree signPlugin ∧
    workResolver.base.hasNul = false ∧ (Session.start bareWorld).Sourced bareWorld ∧
    (Session.start bareWorld).Placed bareWorld ∧ ∃ result t,
    (workResolver.resolve signPlugin "<input>" none).runFrom (Session.start bareWorld) = (result, t) ∧
    (∀ p ∈ t.plugins, WellShaped bareWorld.shared p.2.1) ∧
    ∃ path, (none : Option Path).mapM bareWorld.resolve = .ok path ∧
      ((∃ es, result = .ok es) ∨ (∃ p, result = .error (.problem p)) ∨
        ∃ e, result = .error e ∧ ∃ route here m,
          Stands workResolver bareWorld (signPlugin, startContext workResolver "<input>" path) route here ∧
          bareWorld.shared.view here.1 = .mapping m ∧ ConfigFails workResolver bareWorld m here.2 e) := by
  have hfinite := configsAlone_bareWorld.finiteConfigs
  have htree : bareWorld.shared.IsTree signPlugin := isTree_of_not_hasShared rfl
  have hbase : workResolver.base.hasNul = false := by decide
  have hsourced := Session.sourced_start bareWorld
  have hplaced := Session.placed_start bareWorld
  have hplugins : ∀ p ∈ ((workResolver.resolve signPlugin "<input>" none).runFrom
      (Session.start bareWorld)).2.plugins, WellShaped bareWorld.shared p.2.1 := by
    have hempty : ((workResolver.resolve signPlugin "<input>" none).runFrom
        (Session.start bareWorld)).2.plugins = [] := rfl
    rw [hempty]
    simp
  exact ⟨sound_bareWorld, hfinite, htree, hbase, hsourced, hplaced, _, _, rfl, hplugins,
    resolve_fails_reported workResolver sound_bareWorld hfinite htree "<input>" hbase (by simp) hsourced hplaced rfl hplugins⟩

/-- References that fail without a report, with their failures. -/
def leaking : List (Value × Fault) := [
  (signPlugin, .noItem),
  (.mapping [(.str "plugins", .list [.str "@@"])], .unsupported),
  (extendsOne "plugin:@/recommended", .noItem),
  (extendsOne "@/config", .unsupported),
  (extendsOne "./a\x00.json", .badValue),
  (parserOnly "@", .badValue)]

/-- In a sound world no reference of these is reported as a problem. -/
theorem references_leak : bareWorld.Sound ∧ bareWorld.FiniteConfigs ∧ ∀ c ∈ leaking,
    bareWorld.shared.IsTree c.1 ∧ ∃ t,
      (workResolver.resolve c.1 "<input>" none).runFrom (Session.start bareWorld) = (.error (.fault c.2), t) ∧
      t.plugins = [] := by
  refine ⟨sound_bareWorld, configsAlone_bareWorld.finiteConfigs, fun c hc => ?_⟩
  simp only [leaking, List.mem_cons, List.not_mem_nil, or_false] at hc
  rcases hc with rfl | rfl | rfl | rfl | rfl | rfl <;> exact ⟨isTree_of_not_hasShared rfl, _, rfl, rfl⟩

end Cascade.Resolution
