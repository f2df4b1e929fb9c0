import Cascade.Proofs.Resolution.Patterns

/-! # The patterns of processors

The element of a plugin's processor is about the files of an extension. It is under
the pair of patterns for that extension and under no other pair, also where the
configuration that lists the plugin is inside overrides. The element of that
configuration is under the pairs of all of them then, so that the processor is
assigned to files that its plugin is not used for. -/
namespace Cascade.Resolution

variable {r : Resolver} {w : World} {start : Extended} {p : Place}

/-- The pairs of patterns of the overrides that a route goes through, outermost first. -/
def pairsOn (store : Shared) (route : Route) : List PatternPair :=
  (overridesOn route).filterMap fun o => pairOf? store o.1

/-- The pair of patterns for the files of an extension. -/
def extensionPair (extension : String) : PatternPair := ⟨some ["*" ++ extension], none⟩

/-- Every override on a route has a pair of patterns. -/
theorem Stands.length_pairsOn {route : Route} {here : Extended} (h : Stands r w start route here)
    (hstart : start.2.criteria = none) :
    (pairsOn w.shared route).length = (overridesOn route).length := by
  have hpairs := congrArg List.length (filterMap_map_some (h.criteria hstart).2)
  rwa [List.length_map, List.length_map] at hpairs

/-- The own element of a place is under the pairs of its route. -/
theorem Place.Below.own_pairs (h : p.Below r w start) (hstart : start.2.criteria = none) :
    p.own.node.criteria.map Criteria.pairs =
      if overridesOn p.route = [] then none else some (pairsOn w.shared p.route) := by
  obtain ⟨m, -, -, howns⟩ := h.owns
  obtain ⟨hcriteria, -⟩ := h.stands.criteria hstart
  rw [howns.criteria, hcriteria, criteriaOn, pairsOn]
  cases overridesOn p.route <;> rfl

/-- The element of a processor is under the pair for its extension, and under those of
its route as well just when there are none. -/
theorem Place.Below.processor_pairs (h : p.Below r w start) (hstart : start.2.criteria = none) {e : Element}
    (he : e ∈ p.processors) : ∃ extension, Text.startsWith extension "." = true ∧
      e.kind = .implicitProcessor ∧
      e.node.criteria = some ⟨[extensionPair extension], some p.ctx.directory.text⟩ ∧
      (e.node.criteria.map Criteria.pairs = some (pairsOn w.shared p.route ++ [extensionPair extension]) ↔
        overridesOn p.route = []) := by
  obtain ⟨m, -, -, howns⟩ := h.owns
  rw [howns.processors] at he
  obtain ⟨plugin, -, he⟩ := List.mem_flatMap.mp he
  obtain ⟨extension, hextension, rfl⟩ := List.mem_map.mp he
  obtain ⟨name, -, hname⟩ := List.mem_filterMap.mp hextension
  obtain ⟨-, hdot⟩ := Option.filter_eq_some_iff.mp hname
  refine ⟨extension, hdot, rfl, rfl, ?_⟩
  have hlength := h.stands.length_pairsOn hstart
  show some [extensionPair extension] = some (pairsOn w.shared p.route ++ [extensionPair extension]) ↔ _
  constructor
  · intro heq
    have hnone := congrArg List.length (Option.some.inj heq)
    rw [List.length_append, hlength] at hnone
    exact List.eq_nil_of_length_eq_zero (by simpa using hnone)
  · intro hnone
    rw [pairsOn, hnone]
    rfl

theorem Place.Below.elements_processors (h : p.Below r w start) (hstart : start.2.criteria = none) :
    p.elements.filter (fun e => e.kind = .implicitProcessor) = p.processors := by
  obtain ⟨m, -, -, howns⟩ := h.owns
  have hall : p.processors.filter (fun e => e.kind = .implicitProcessor) = p.processors := by
    rw [List.filter_eq_self]
    intro e he
    obtain ⟨_, -, hkind, -⟩ := h.processor_pairs hstart he
    simpa using hkind
  rw [Place.elements, List.filter_append, hall]
  simp [howns.kind]

/-- A place with processors has plugins. -/
theorem Place.Below.plugins_of_processors (h : p.Below r w start) {e : Element} (he : e ∈ p.processors) :
    p.own.node.plugins.isSome = true := by
  obtain ⟨m, -, -, howns⟩ := h.owns
  rw [howns.processors] at he
  cases hplugins : p.own.node.plugins with
  | some plugins => rfl
  | none => simp [hplugins, implicitElements] at he

/-- The processors of a resolution stand at its places, in the order of precedence.
The own element of a place is under the pairs of all overrides on the route to it,
outermost first. The elements of its processors are under their own pair alone, so
that the pairs of the overrides come before it only where there are none. -/
theorem resolve_processors {config : Value} {name : String} {file : Option Path} {s t : Session}
    {es : List Element} (h : (r.resolve config name file).runFrom s = (.ok es, t)) :
    ∃ path, file.mapM s.world.resolve = .ok path ∧ ∃ places : List Place,
      es.filter (fun e => e.kind = .implicitProcessor) = places.flatMap Place.processors ∧
      (places.map Place.route).Pairwise Before ∧
      ∀ p ∈ places, p.Below r s.world (config, startContext r name path) ∧
        p.own.node.criteria.map Criteria.pairs =
          (if overridesOn p.route = [] then none else some (pairsOn s.world.shared p.route)) ∧
        ∀ e ∈ p.processors, ∃ extension, Text.startsWith extension "." = true ∧
          e.kind = .implicitProcessor ∧
          e.node.criteria = some ⟨[extensionPair extension], some p.ctx.directory.text⟩ ∧
          (e.node.criteria.map Criteria.pairs =
              some (pairsOn s.world.shared p.route ++ [extensionPair extension]) ↔
            overridesOn p.route = []) := by
  obtain ⟨path, hpath, places, rfl, hsorted, hp⟩ := resolve_laid h
  refine ⟨path, hpath, places, ?_, hsorted, fun p hmem => ?_⟩
  · rw [List.filter_flatMap]
    exact List.flatMap_congr fun p hmem => (hp p hmem).elements_processors rfl
  · exact ⟨hp p hmem, (hp p hmem).own_pairs rfl, fun e he => (hp p hmem).processor_pairs rfl he⟩

/-! An override lists a plugin that has a processor. -/

def escapingWorld : World where
  here := ["work"]
  entries := [(["work", "eslint_plugin_a.py"], .script (.defines
    [("processors", .mapping [(.str ".md", .str "first")])]))]

def escapingConfig : Value :=
  withOverrides [] [overrideFor "docs/**" [(.str "plugins", .list [.str "a"])]]

/-- What elements are, the pairs of patterns that they are under, and whether they
have plugins. -/
def outlineOf (es : List Element) : List (Element.Kind × Option (List PatternPair) × Bool) :=
  es.map fun e => (e.kind, e.node.criteria.map Criteria.pairs, e.node.plugins.isSome)

def escapingOutline : List (Element.Kind × Option (List PatternPair) × Bool) := [
  (.config, none, false),
  (.implicitProcessor, some [extensionPair ".md"], false),
  (.config, some [⟨some ["docs/**"], none⟩], true)]

theorem exists_escaping : ∃ es t,
    (workResolver.resolve escapingConfig "<input>" none).runFrom (Session.start escapingWorld) = (.ok es, t) ∧
    outlineOf es = escapingOutline :=
  Action.exists_run (Session.start escapingWorld) (by decide +kernel)

theorem resolve_processors_escapingWorld : ∃ es t,
    (workResolver.resolve escapingConfig "<input>" none).runFrom (Session.start escapingWorld) = (.ok es, t) ∧
    outlineOf es = escapingOutline ∧
    ∃ path, (none : Option Path).mapM escapingWorld.resolve = .ok path ∧ ∃ places : List Place,
      es.filter (fun e => e.kind = .implicitProcessor) = places.flatMap Place.processors ∧
      (places.map Place.route).Pairwise Before ∧
      ∀ p ∈ places, p.Below workResolver escapingWorld (escapingConfig, startContext workResolver "<input>" path) ∧
        p.own.node.criteria.map Criteria.pairs =
          (if overridesOn p.route = [] then none else some (pairsOn escapingWorld.shared p.route)) ∧
        ∀ e ∈ p.processors, ∃ extension, Text.startsWith extension "." = true ∧
          e.kind = .implicitProcessor ∧
          e.node.criteria = some ⟨[extensionPair extension], some p.ctx.directory.text⟩ ∧
          (e.node.criteria.map Criteria.pairs =
              some (pairsOn escapingWorld.shared p.route ++ [extensionPair extension]) ↔
            overridesOn p.route = []) := by
  obtain ⟨es, t, hrun, hes⟩ := exists_escaping
  exact ⟨es, t, hrun, hes, resolve_processors hrun⟩

theorem mem_outlineOf {es : List Element} {e : Element} (he : e ∈ es) :
    (e.kind, e.node.criteria.map Criteria.pairs, e.node.plugins.isSome) ∈ outlineOf es :=
  List.mem_map.mpr ⟨e, he, rfl⟩

/-- The element of a processor whose configuration is inside an override, without the
pair of the override. -/
theorem processor_escapes : ∃ es t path,
    (workResolver.resolve escapingConfig "<input>" none).runFrom (Session.start escapingWorld) = (.ok es, t) ∧
    ∃ p : Place, p.Below workResolver escapingWorld (escapingConfig, startContext workResolver "<input>" path) ∧
      overridesOn p.route ≠ [] ∧ ∃ e ∈ p.processors, e ∈ es ∧ ∀ extension,
        e.node.criteria.map Criteria.pairs ≠
          some (pairsOn escapingWorld.shared p.route ++ [extensionPair extension]) := by
  obtain ⟨es, t, hrun, hes⟩ := exists_escaping
  obtain ⟨path, -, places, hplaces, -, hp⟩ := resolve_laid hrun
  have hmem : (.implicitProcessor, some [extensionPair ".md"], false) ∈ outlineOf es := by
    rw [hes]
    simp [escapingOutline]
  obtain ⟨e, he, heq⟩ := List.mem_map.mp hmem
  simp only [Prod.mk.injEq] at heq
  obtain ⟨hkind, hcriteria, -⟩ := heq
  obtain ⟨p, hplace, hep⟩ := List.mem_flatMap.mp (hplaces ▸ he)
  have hbelow := hp p hplace
  have hprocessor : e ∈ p.processors := by
    rw [← hbelow.elements_processors rfl]
    exact List.mem_filter.mpr ⟨hep, by simpa using hkind⟩
  -- only the configuration inside the override has plugins, and it is under the pair
  have hown : p.own ∈ es := hplaces ▸ List.mem_flatMap.mpr ⟨p, hplace, by simp [Place.elements]⟩
  have houtline := mem_outlineOf hown
  rw [hes, hbelow.plugins_of_processors hprocessor, hbelow.own_pairs rfl] at houtline
  have hroute : overridesOn p.route ≠ [] := by
    intro hnone
    simp [escapingOutline, hnone] at houtline
  refine ⟨es, t, path, hrun, p, hbelow, hroute, e, hprocessor, he, fun extension heq => ?_⟩
  have hpairs : (pairsOn escapingWorld.shared p.route).length = (overridesOn p.route).length :=
    hbelow.stands.length_pairsOn rfl
  have hlength := congrArg List.length (Option.some.inj (hcriteria.symm.trans heq))
  rw [List.length_append, hpairs] at hlength
  exact hroute (List.eq_nil_of_length_eq_zero (by simpa using hlength))

end Cascade.Resolution
