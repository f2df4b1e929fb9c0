import Cascade.Proofs.Resolution.Interference
import Cascade.Proofs.Resolution.Places
import Cascade.Proofs.Resolution.Pruning

/-! # The patterns that apply to an element

A reference keeps the criteria of the configuration that it is in, and an override
adds its own patterns to them. So an element is under the patterns of exactly those
overrides that its route goes through, from the outermost to the innermost. -/
namespace Cascade

theorem filterMap_map_some {α β : Type} {f : α → Option β} {l : List α} (h : ∀ x ∈ l, ∃ y, f x = some y) :
    (l.filterMap f).map some = l.map f := by
  induction l with
  | nil => rfl
  | cons x rest ih =>
    obtain ⟨y, hy⟩ := h x (by simp)
    rw [List.filterMap_cons_some hy, List.map_cons, List.map_cons, hy,
      ih fun x hx => h x (List.mem_cons_of_mem _ hx)]

namespace Resolution

variable {r : Resolver} {w : World} {start here next : Extended}

/-- The overrides that a route goes through, with the directories that their patterns
count from. -/
def overridesOn (route : Route) : List (Value × Path) :=
  route.filterMap fun
    | .reference _ _ => none
    | .override _ override base => some (override, base)

/-- The criteria that the overrides of a route make up. -/
def criteriaOn (store : Shared) (route : Route) : Option Criteria :=
  match overridesOn route with
  | [] => none
  | outermost :: inner =>
    some ⟨(outermost :: inner).filterMap fun o => pairOf? store o.1, some outermost.2.text⟩

theorem overridesOn_reference (route : Route) (place : Nat) (name : String) :
    overridesOn (route ++ [.reference place name]) = overridesOn route := by
  simp [overridesOn]

theorem overridesOn_override (route : Route) (place : Nat) (override : Value) (base : Path) :
    overridesOn (route ++ [.override place override base]) = overridesOn route ++ [(override, base)] := by
  simp [overridesOn]

/-- An override at the end of a route adds its pair to the criteria. -/
theorem criteriaOn_override {store : Shared} {override : Value} {pair : PatternPair}
    (h : pairOf? store override = some pair) (route : Route) (place : Nat) (base : Path) :
    criteriaOn store (route ++ [.override place override base]) =
      Criteria.combine (criteriaOn store route) (some ⟨[pair], some base.text⟩) := by
  rw [criteriaOn, criteriaOn, overridesOn_override]
  cases overridesOn route with
  | nil => simp [Criteria.combine, h]
  | cons outermost inner =>
    rw [List.cons_append]
    simp [Criteria.combine, Criteria.both, List.filterMap_cons, h]
    cases pairOf? store outermost.1 <;> rfl

theorem criteriaOn_isSome (store : Shared) (route : Route) :
    (criteriaOn store route).isSome = true ↔ overridesOn route ≠ [] := by
  rw [criteriaOn]
  cases overridesOn route <;> simp

/-- No pair of patterns of the overrides is lost. -/
theorem criteriaOn_pairs {store : Shared} {route : Route} {c : Criteria}
    (h : ∀ o ∈ overridesOn route, ∃ pair, pairOf? store o.1 = some pair) (hc : c ∈ criteriaOn store route) :
    c.pairs.map some = (overridesOn route).map (fun o => pairOf? store o.1) ∧
      c.base = (overridesOn route).head?.map fun o => o.2.text := by
  rw [criteriaOn] at hc
  revert hc h
  cases overridesOn route with
  | nil => simp
  | cons outermost inner =>
    rintro h ⟨⟩
    exact ⟨filterMap_map_some h, rfl⟩

theorem Loads.criteria {name : String} {ctx : Context} (h : Loads r w name ctx next) :
    next.2.criteria = ctx.criteria := by
  obtain ⟨s, t, -, hrun⟩ := h
  have hnext := (loadExtended_criteria (r := r) name ctx s trivial).2
  rw [hrun] at hnext
  exact hnext

/-- A configuration stands under the criteria of its route, on which every override
has a pair of patterns. -/
theorem Stands.criteria {route : Route} (h : Stands r w start route here) (hstart : start.2.criteria = none) :
    here.2.criteria = criteriaOn w.shared route ∧
      ∀ o ∈ overridesOn route, ∃ pair, pairOf? w.shared o.1 = some pair := by
  induction h with
  | start => exact ⟨hstart, by simp [overridesOn]⟩
  | @next route here next step _ hgoes ih =>
    obtain ⟨ih, ihp⟩ := ih
    cases hgoes with
    | reference _ _ _ hloads =>
      rw [criteriaOn, overridesOn_reference, ← criteriaOn, hloads.criteria]
      exact ⟨ih, ihp⟩
    | override _ _ _ hctx =>
      obtain ⟨pair, hpair, hcriteria⟩ := overrideContext_pair hctx
      refine ⟨?_, fun o ho => ?_⟩
      · rw [criteriaOn_override hpair, ← ih]
        exact hcriteria
      · rw [overridesOn_override] at ho
        rcases List.mem_append.mp ho with ho | ho
        · exact ihp o ho
        · cases List.mem_singleton.mp ho
          exact ⟨pair, hpair⟩

/-! ## Configurations and their elements -/

theorem Place.Below.elements {p : Place} (h : p.Below r w start) :
    p.elements.filter (fun e => e.kind = .config) = [p.own] := by
  obtain ⟨m, -, -, howns⟩ := h.owns
  have hprocessors : p.processors.filter (fun e => e.kind = .config) = [] := by
    rw [howns.processors, List.filter_eq_nil_iff]
    intro e he
    obtain ⟨plugin, -, he⟩ := List.mem_flatMap.mp he
    obtain ⟨extension, -, rfl⟩ := List.mem_map.mp he
    simp [implicitElement]
  rw [Place.elements, List.filter_append, hprocessors]
  simp [howns.kind]

/-- The configuration among the elements of a place is the own one. -/
theorem Place.Below.own_eq {p : Place} (h : p.Below r w start) {e : Element} (he : e ∈ p.elements)
    (hkind : e.kind = .config) : p.own = e := by
  have hown : e ∈ p.elements.filter (fun e => e.kind = .config) := List.mem_filter.mpr ⟨he, by simpa using hkind⟩
  rw [h.elements, List.mem_singleton] at hown
  exact hown.symm

/-- The configurations of a resolution stand at different places, in the order of
precedence. Each is under patterns just when there is an override on the route to
it; the pairs of patterns are then those of all these overrides, outermost first,
and they count from the directory of the outermost one. -/
theorem resolve_criteria {config : Value} {name : String} {file : Option Path} {s t : Session}
    {es : List Element} (h : (r.resolve config name file).runFrom s = (.ok es, t)) :
    ∃ path, file.mapM s.world.resolve = .ok path ∧ ∃ places : List Place,
      es.filter (fun e => e.kind = .config) = places.map Place.own ∧
      (places.map Place.route).Pairwise Before ∧
      ∀ p ∈ places, p.Below r s.world (config, startContext r name path) ∧
        (p.own.node.criteria.isSome = true ↔ overridesOn p.route ≠ []) ∧
        ∀ c ∈ p.own.node.criteria,
          c.pairs.map some = (overridesOn p.route).map (fun o => pairOf? s.world.shared o.1) ∧
          c.base = (overridesOn p.route).head?.map fun o => o.2.text := by
  obtain ⟨path, hpath, places, rfl, hsorted, hp⟩ := resolve_laid h
  refine ⟨path, hpath, places, ?_, hsorted, fun p hmem => ?_⟩
  · rw [List.filter_flatMap, List.map_eq_flatMap]
    exact List.flatMap_congr fun p hmem => (hp p hmem).elements
  · obtain ⟨hcriteria, hpairs⟩ := (hp p hmem).stands.criteria rfl
    obtain ⟨m, -, -, howns⟩ := (hp p hmem).owns
    rw [howns.criteria, hcriteria]
    exact ⟨hp p hmem, criteriaOn_isSome _ _, fun c hc => criteriaOn_pairs hpairs hc⟩

/-! An override that extends a configuration with an override, and has one itself. -/

def nestedWorld : World where
  here := ["work"]
  available := [("eslint_config_base",
    [("config", withOverrides [ruleOf "semi"] [overrideFor "*.ts" [ruleOf "curly"]])])]

def nestedConfig : Value := withOverrides [] [
  overrideFor "*.js" [(.str "extends", .str "base"), (.str "overrides", .list [overrideFor "*.md" []])],
  overrideFor "*.txt" []]

/-- The included patterns of the criteria of elements. -/
def includesOf (es : List Element) : List (List (List String)) :=
  es.map fun e => (e.node.criteria.map Criteria.pairs).getD [] |>.filterMap PatternPair.includes

theorem resolve_criteria_nestedWorld : ∃ es t,
    (workResolver.resolve nestedConfig "<input>" none).runFrom (Session.start nestedWorld) = (.ok es, t) ∧
    includesOf es = [[], [["*.js"]], [["*.js"], ["*.ts"]], [["*.js"]], [["*.js"], ["*.md"]], [["*.txt"]]] ∧
    ∃ path, (none : Option Path).mapM nestedWorld.resolve = .ok path ∧ ∃ places : List Place,
      es.filter (fun e => e.kind = .config) = places.map Place.own ∧
      (places.map Place.route).Pairwise Before ∧
      ∀ p ∈ places, p.Below workResolver nestedWorld (nestedConfig, startContext workResolver "<input>" path) ∧
        (p.own.node.criteria.isSome = true ↔ overridesOn p.route ≠ []) ∧
        ∀ c ∈ p.own.node.criteria,
          c.pairs.map some = (overridesOn p.route).map (fun o => pairOf? nestedWorld.shared o.1) ∧
          c.base = (overridesOn p.route).head?.map fun o => o.2.text := by
  obtain ⟨es, t, hrun, hes⟩ := Action.exists_run (Session.start nestedWorld)
    (a := workResolver.resolve nestedConfig "<input>" none) (f := includesOf)
    (b := [[], [["*.js"]], [["*.js"], ["*.ts"]], [["*.js"]], [["*.js"], ["*.md"]], [["*.txt"]]])
    (by decide +kernel)
  exact ⟨es, t, hrun, hes, resolve_criteria hrun⟩

end Resolution

end Cascade
