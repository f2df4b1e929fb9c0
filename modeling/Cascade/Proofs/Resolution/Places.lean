import Cascade.Proofs.Resolution.Extends
import Cascade.Proofs.Resolution.OwnElements

/-! # Where elements stand

Every configuration that a resolution comes to stands at the end of a route from the
first one, which goes on to what is extended and into overrides. A resolution passes
each place once, in the order of precedence: what a configuration extends comes
before the configuration itself, and its overrides come after it. -/
namespace Cascade.Resolution

variable {r : Resolver} {w : World} {start here next : Extended}

/-! ## Routes -/

/-- A step from a configuration to what a reference of it leads to, or into one of
its overrides, whose patterns count from a directory. -/
inductive Step where
  | reference (place : Nat) (name : String)
  | override (place : Nat) (override : Value) (base : Path)

/-- The steps from a configuration to one below it, the first one first. -/
abbrev Route := List Step

/-- What a reference leads to when it is loaded in a world, whatever has been loaded
there before. -/
def Loads (r : Resolver) (w : World) (name : String) (ctx : Context) (next : Extended) : Prop :=
  ∃ s t : Session, s.world = w ∧ (loadExtended r name ctx).runFrom s = (.ok next, t)

/-- A step leads from one configuration to another one. -/
inductive Goes (r : Resolver) (w : World) : Extended → Step → Extended → Prop where
  | reference {config : Value} {ctx : Context} {m : Entries} {names : List String} {place : Nat}
      {name : String} {next : Extended} :
      w.shared.view config = .mapping m → references w.shared m ctx = .ok names → names[place]? = some name →
      Loads r w name ctx next → Goes r w (config, ctx) (.reference place name) next
  | override {config : Value} {ctx ctx' : Context} {m : Entries} {items : List Value} {place : Nat}
      {override : Value} :
      w.shared.view config = .mapping m → overrides w.shared m ctx = .ok items →
      items[place]? = some override → overrideContext w.shared override (ctx.atOverride place) = .ok ctx' →
      Goes r w (config, ctx) (.override place override ctx.directory) (override, ctx')

/-- A configuration stands at the end of a route. -/
inductive Stands (r : Resolver) (w : World) (start : Extended) : Route → Extended → Prop where
  | start : Stands r w start [] start
  | next {route : Route} {here next : Extended} {step : Step} :
      Stands r w start route here → Goes r w here step next → Stands r w start (route ++ [step]) next

/-! ## Precedence -/

/-- The order of the steps from one configuration. -/
inductive Step.Before : Step → Step → Prop where
  | references {i j : Nat} {name name' : String} : i < j →
      Step.Before (.reference i name) (.reference j name')
  | overrides {i j : Nat} {override override' : Value} {base base' : Path} : i < j →
      Step.Before (.override i override base) (.override j override' base')
  | reference_override {i j : Nat} {name : String} {override : Value} {base : Path} :
      Step.Before (.reference i name) (.override j override base)

/-- The order of places, by the routes to them. -/
inductive Before : Route → Route → Prop where
  | reference_own {place : Nat} {name : String} {route : Route} : Before (.reference place name :: route) []
  | own_override {place : Nat} {override : Value} {base : Path} {route : Route} :
      Before [] (.override place override base :: route)
  | apart {step step' : Step} {route route' : Route} : step.Before step' →
      Before (step :: route) (step' :: route')
  | along {step : Step} {route route' : Route} : Before route route' →
      Before (step :: route) (step :: route')

theorem Step.Before.ne {step step' : Step} (h : step.Before step') : step ≠ step' := by
  rintro rfl
  cases h with
  | references h => exact absurd h (Nat.lt_irrefl _)
  | overrides h => exact absurd h (Nat.lt_irrefl _)

/-- No place comes before itself, so that places in order are different ones. -/
theorem Before.ne {route route' : Route} (h : Before route route') : route ≠ route' := by
  induction h with
  | reference_own => simp
  | own_override => simp
  | apart hs => exact fun heq => hs.ne (List.cons.inj heq).1
  | along _ ih => exact fun heq => ih (List.cons.inj heq).2

theorem Before.append {route route' : Route} (h : Before route route') (front : Route) :
    Before (front ++ route) (front ++ route') := by
  induction front with
  | nil => exact h
  | cons step rest ih => exact .along ih

/-! ## Places -/

/-- A place of a resolution: a configuration with the elements that it has by itself. -/
structure Place where
  route : Route
  config : Value
  ctx : Context
  processors : List Element
  own : Element

def Place.elements (p : Place) : List Element := p.processors ++ [p.own]

/-- A place below a configuration, where a configuration without fault stands. -/
structure Place.Below (r : Resolver) (w : World) (start : Extended) (p : Place) : Prop where
  stands : Stands r w start p.route (p.config, p.ctx)
  owns : ∃ m, w.shared.view p.config = .mapping m ∧ checkMembers w.shared m p.ctx = .ok () ∧
    Owns w m p.ctx p.processors p.own

/-- Elements that are those of places in order, whose routes continue a route by what
is allowed for them. -/
def Laid (r : Resolver) (w : World) (start : Extended) (route : Route) (Allowed : Route → Prop)
    (es : List Element) : Prop :=
  ∃ places : List Place, es = places.flatMap Place.elements ∧
    (places.map Place.route).Pairwise Before ∧
    ∀ p ∈ places, p.Below r w start ∧ ∃ rest, p.route = route ++ rest ∧ Allowed rest

namespace Laid

variable {route : Route} {Allowed Allowed' : Route → Prop} {es es' : List Element}

theorem nil : Laid r w start route Allowed [] := ⟨[], rfl, .nil, by simp⟩

theorem mono (h : Laid r w start route Allowed es) (ha : ∀ rest, Allowed rest → Allowed' rest) :
    Laid r w start route Allowed' es := by
  obtain ⟨places, hes, hsorted, hp⟩ := h
  refine ⟨places, hes, hsorted, fun p hmem => ?_⟩
  obtain ⟨hbelow, rest, hroute, hallowed⟩ := hp p hmem
  exact ⟨hbelow, rest, hroute, ha rest hallowed⟩

theorem append (h : Laid r w start route Allowed es) (h' : Laid r w start route Allowed' es')
    (hb : ∀ rest rest', Allowed rest → Allowed' rest' → Before rest rest') :
    Laid r w start route (fun rest => Allowed rest ∨ Allowed' rest) (es ++ es') := by
  obtain ⟨places, rfl, hsorted, hp⟩ := h
  obtain ⟨places', rfl, hsorted', hp'⟩ := h'
  refine ⟨places ++ places', List.flatMap_append.symm, ?_, fun p hmem => ?_⟩
  · rw [List.map_append, List.pairwise_append]
    refine ⟨hsorted, hsorted', ?_⟩
    rintro _ hmem _ hmem'
    obtain ⟨p, hin, rfl⟩ := List.mem_map.mp hmem
    obtain ⟨p', hin', rfl⟩ := List.mem_map.mp hmem'
    obtain ⟨-, rest, hroute, ha⟩ := hp p hin
    obtain ⟨-, rest', hroute', ha'⟩ := hp' p' hin'
    rw [hroute, hroute']
    exact (hb rest rest' ha ha').append route
  · rcases List.mem_append.mp hmem with hmem | hmem
    · obtain ⟨hbelow, rest, hroute, ha⟩ := hp p hmem
      exact ⟨hbelow, rest, hroute, .inl ha⟩
    · obtain ⟨hbelow, rest, hroute, ha⟩ := hp' p hmem
      exact ⟨hbelow, rest, hroute, .inr ha⟩

/-- What lies below a step lies below the configuration that it starts from. -/
theorem step {step : Step} (h : Laid r w start (route ++ [step]) (fun _ => True) es) :
    Laid r w start route (fun rest => rest.head? = some step) es := by
  obtain ⟨places, hes, hsorted, hp⟩ := h
  refine ⟨places, hes, hsorted, fun p hmem => ?_⟩
  obtain ⟨hbelow, rest, hroute, -⟩ := hp p hmem
  exact ⟨hbelow, step :: rest, by rw [hroute, List.append_assoc]; rfl, rfl⟩

/-- What lies below several steps in their order. -/
theorem flatten {σ : Type} (step : Nat → σ → Step) (hstep : ∀ i j a b, i < j → (step i a).Before (step j b))
    {ess : List (List Element)}
    (h : ∀ i es, ess[i]? = some es → ∃ a, Laid r w start (route ++ [step i a]) (fun _ => True) es) :
    Laid r w start route (fun rest => ∃ i a, rest.head? = some (step i a)) ess.flatten := by
  induction ess generalizing step with
  | nil => exact .nil
  | cons es ess ih =>
    obtain ⟨a, hes⟩ := h 0 es rfl
    have hrest := ih (fun i => step (i + 1)) (fun i j a b hlt => hstep _ _ a b (by omega))
      fun i es hi => h (i + 1) es hi
    refine (hes.step.append hrest ?_).mono ?_
    · rintro rest rest' hhead ⟨j, b, hhead'⟩
      obtain ⟨tail, rfl⟩ := List.head?_eq_some_iff.mp hhead
      obtain ⟨tail', rfl⟩ := List.head?_eq_some_iff.mp hhead'
      exact .apart (hstep 0 (j + 1) a b (by omega))
    · rintro rest (hhead | ⟨i, b, hhead⟩)
      · exact ⟨0, a, hhead⟩
      · exact ⟨i + 1, b, hhead⟩

end Laid

/-! ## A resolution passes all places in order -/

theorem loadExtended_loads (name : String) (ctx : Context) :
    InWorld w (loadExtended r name ctx) (Loads r w name ctx) :=
  (loadExtended_agrees interchangeable_alike name ctx ctx (.refl ctx : Renamed True ctx ctx)).inWorld.ran.mono
    fun _ h => h.2

/-- A configuration stands between what it extends and its overrides. -/
theorem laid_around {route : Route} {config : Value} {ctx : Context} {m : Entries}
    {outer own inner : List Element} (h : Stands r w start route (config, ctx))
    (hm : w.shared.view config = .mapping m) (hcheck : checkMembers w.shared m ctx = .ok ())
    (hown : ∃ processors e, own = processors ++ [e] ∧ Owns w m ctx processors e)
    (houter : Laid r w start route
      (fun rest => ∃ i name, rest.head? = some (.reference i name)) outer)
    (hinner : Laid r w start route
      (fun rest => ∃ i override, rest.head? = some (.override i override ctx.directory)) inner) :
    Laid r w start route (fun _ => True) (outer ++ own ++ inner) := by
  obtain ⟨processors, e, rfl, howns⟩ := hown
  have hself : Laid r w start route (· = []) (processors ++ [e]) := by
    refine ⟨[⟨route, config, ctx, processors, e⟩], by simp [Place.elements], by simp, fun p hp => ?_⟩
    cases List.mem_singleton.mp hp
    exact ⟨⟨h, m, hm, hcheck, howns⟩, [], (List.append_nil _).symm, rfl⟩
  -- what is extended comes before the configuration itself, and the overrides come after it
  refine ((houter.append hself ?_).append hinner ?_).mono fun _ _ => trivial
  · rintro rest _ ⟨i, name, hhead⟩ rfl
    obtain ⟨tail, rfl⟩ := List.head?_eq_some_iff.mp hhead
    exact .reference_own
  · rintro rest rest' (⟨i, name, hhead⟩ | rfl) ⟨j, override, hhead'⟩ <;>
      obtain ⟨tail', rfl⟩ := List.head?_eq_some_iff.mp hhead'
    · obtain ⟨tail, rfl⟩ := List.head?_eq_some_iff.mp hhead
      exact .apart .reference_override
    · exact .own_override

theorem elements_laid {extended : String → Context → Action (List Element)}
    (hx : ∀ route name ctx, (∀ next, Loads r w name ctx next → Stands r w start route next) →
      InWorld w (extended name ctx) (Laid r w start route fun _ => True))
    (depth : Nat) {route : Route} {config : Value} {ctx : Context} (h : Stands r w start route (config, ctx)) :
    InWorld w (elements r extended depth config ctx) (Laid r w start route fun _ => True) := by
  induction depth generalizing route config ctx with
  | zero => exact .throw trivial
  | succ depth ih =>
    unfold elements
    refine InWorld.shared.bind fun _ hstore => ?_
    subst hstore
    split
    · rename_i m hm
      refine (InWorld.ofProblem _).bind fun _ hcheck => (InWorld.ofProblem _).bind fun names hnames => ?_
      refine (Yields.mapM_getElem? (Q := fun i es => ∃ name,
        Laid r w start (route ++ [.reference i name]) (fun _ => True) es) fun i name hi => ?_).bind
        fun outer houter => ?_
      · exact (hx _ name ctx fun next hnext => h.next (.reference hm hnames hi hnext)).mono
          fun es hes => ⟨name, hes⟩
      refine (ownElements_owns r w m ctx).bind fun own hown => ?_
      refine (InWorld.ofProblem _).bind fun items hitems => ?_
      refine (Yields.mapM_getElem? (Q := fun i es => ∃ override,
        Laid r w start (route ++ [.override i override ctx.directory]) (fun _ => True) es)
        fun i item hi => ?_).bind fun inner hinner => .pure ?_
      · obtain ⟨override, place⟩ := item
        obtain ⟨hat, rfl⟩ : items[i]? = some override ∧ i = place := by
          rw [List.getElem?_zipIdx] at hi
          simpa using hi
        refine (InWorld.ofProblem _).bind fun c hc => ?_
        exact (ih (h.next (.override hm hitems hat hc))).mono fun es hes => ⟨override, hes⟩
      · refine laid_around h hm hcheck hown ?_ ?_
        · exact .flatten .reference (fun _ _ _ _ => .references) houter
        · exact .flatten (fun i override => .override i override ctx.directory)
            (fun _ _ _ _ => .overrides) hinner
    · exact .throw trivial

/-- What a resolution of a configuration finds, at places below it that are in order. -/
theorem elementsTo_laid (steps : Nat) {route : Route} {config : Value} {ctx : Context}
    (h : Stands r w start route (config, ctx)) :
    InWorld w (elementsTo r (loadExtended r) steps config ctx) (Laid r w start route fun _ => True) := by
  induction steps generalizing route config ctx with
  | zero => exact .throw trivial
  | succ steps ih =>
    unfold elementsTo
    refine InWorld.shared.bind fun store _ => elements_laid (fun route name ctx hroute => ?_) _ h
    exact (loadExtended_loads name ctx).bind fun next hnext => ih (hroute next hnext)

/-- The elements of a configuration are those of all places of its resolution. -/
theorem resolve_laid {config : Value} {name : String} {file : Option Path} {s t : Session}
    {es : List Element} (h : (r.resolve config name file).runFrom s = (.ok es, t)) :
    ∃ path, file.mapM s.world.resolve = .ok path ∧ ∃ places : List Place,
      es = places.flatMap Place.elements ∧ (places.map Place.route).Pairwise Before ∧
      ∀ p ∈ places, p.Below r s.world (config, startContext r name path) := by
  refine InWorld.of_run (Q := fun es => ∃ path, file.mapM s.world.resolve = .ok path ∧ ∃ places : List Place,
    es = places.flatMap Place.elements ∧ (places.map Place.route).Pairwise Before ∧
    ∀ p ∈ places, p.Below r s.world (config, startContext r name path)) ?_ h
  unfold Resolver.resolve Resolver.resolveWith
  refine InWorld.world.bind fun _ hworld => ?_
  subst hworld
  refine (InWorld.optionMapM_ofFault file _).bind fun path hpath => ?_
  refine (elementsTo_laid _ .start).mono fun es hes => ⟨path, hpath, ?_⟩
  obtain ⟨places, hes, hsorted, hp⟩ := hes
  exact ⟨places, hes, hsorted, fun p hmem => (hp p hmem).1⟩

end Cascade.Resolution
