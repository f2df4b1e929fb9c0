import Cascade.Proofs.Resolution.Independence

/-! # Modules that are in each other's way

Two worlds whose modules are not apart. In the first one two module files have the
same key, because the digests of their paths start alike, and whichever is loaded
first stands for both. In the second one modules are below others, and when they
are imported they take the place of members of these. -/
namespace Cascade.Resolution

/-- A member of a configuration that sets one rule. -/
def ruleOf (name : String) : Value × Value := (.str "rules", .mapping [(.str name, .int 1)])

def overrideFor (pattern : String) (members : Entries) : Value :=
  .mapping ((.str "files", .str pattern) :: members)

def withOverrides (members : Entries) (overrides : List Value) : Value :=
  .mapping (members ++ [(.str "overrides", .list overrides)])

def extendsOne (reference : String) : Value := .mapping [(.str "extends", .str reference)]

def parserOnly (name : String) : Value := .mapping [(.str "parser", .str name)]

def rulesIn : Value → List String
  | .mapping m => match Entries.field? m "rules" with
    | some (.mapping rules) => rules.map fun e => e.1.text
    | _ => []
  | _ => []

def textFile (s : String) : Entry := .file s.toUTF8.toList

def workResolver : Resolver := ⟨⟨"/", ["work"]⟩, ⟨"/", ["work"]⟩⟩

/-- A configuration and a plugin that have members, and modules below them which
take the place of these members. -/
def bindingWorld : World where
  here := ["work"]
  entries := [
    (["work", "lib", "eslint_config_a", "__init__.py"], .script (.defines
      [("config", .mapping [ruleOf "curly"])])),
    (["work", "lib", "eslint_config_a", "config.py"], .script (.defines [])),
    (["work", "lib", "eslint_plugin_p", "__init__.py"], .script (.defines
      [("configs", .mapping [(.str "c", .mapping [ruleOf "curly"])])])),
    (["work", "lib", "eslint_plugin_p", "plugin.py"], .script (.defines
      [("configs", .mapping [(.str "c", .mapping [ruleOf "eqeqeq"])])]))]
  importPath := [⟨"/", ["work", "lib"]⟩]

/-! ## Files with the same key -/

/-- The folders of two module files whose paths have digests that start alike. -/
def collidingFolders : List String := ["1835924", "48542345"]

def collidingWorld : World where
  here := ["work"]
  entries := collidingFolders.map fun folder =>
    (["work", folder, "c.py"], .script (.defines [("folder", .str folder)]))

def collidingPath (folder : String) : Path := ⟨"/", ["work", folder, "c.py"]⟩

def collidingKey : String := "flatcompat._loaded.c_bd33ebdcfc70"

def collidingModule (folder : String) : Value :=
  .object (.moduleNamed collidingKey) [("folder", .str folder)]

def parserFrom (folder : String) : String := "./" ++ folder ++ "/c.py"

theorem digits_colliding : ∀ folder ∈ collidingFolders,
    Module.digits (collidingPath folder) = "bd33ebdcfc70" := by decide +kernel

theorem collidingPath_resolve {folder : String} (hf : folder ∈ collidingFolders) :
    collidingWorld.resolve (collidingPath folder) = .ok (collidingPath folder) := by
  revert folder
  decide +kernel

theorem keyOf_colliding {folder : String} (hf : folder ∈ collidingFolders) :
    Module.keyOf "c" (collidingPath folder) = collidingKey := by
  rw [Module.keyOf, digits_colliding folder hf]
  rfl

theorem loaded_colliding {folder : String} (hf : folder ∈ collidingFolders) :
    Module.loaded collidingWorld "c" (collidingPath folder) = .ok (collidingModule folder) := by
  have hpy : Text.endsWith (collidingPath folder).name ".py" = true := by
    revert folder
    decide +kernel
  have hx : Module.execution collidingWorld (collidingPath folder) = .defines [("folder", .str folder)] := by
    simp only [collidingFolders, List.mem_cons, List.not_mem_nil, or_false] at hf
    rcases hf with rfl | rfl <;> rfl
  rw [Module.loaded, Module.key_eq_ok.mpr ⟨_, collidingPath_resolve hf, keyOf_colliding hf⟩]
  simp only [mapError_ok, ok_bind, hpy, Bool.not_true, Bool.false_eq_true, if_false, hx]
  rfl

theorem fromFile_colliding {folder : String} (hf : folder ∈ collidingFolders) {s : Session}
    (hs : s.world = collidingWorld) : ∃ t v,
      (Module.fromFile "c" (collidingPath folder)).runFrom s = (.ok v, t) ∧ t.world = collidingWorld ∧
      t.registry.lookup collidingKey = some v ∧
      v = (s.registry.lookup collidingKey).getD (collidingModule folder) := by
  have hp : s.world.resolve (collidingPath folder) = .ok (collidingPath folder) := by rw [hs, collidingPath_resolve hf]
  rw [← keyOf_colliding hf]
  cases hl : s.registry.lookup (Module.keyOf "c" (collidingPath folder)) with
  | some v => exact ⟨s, v, Module.fromFile_registered hp hl, hs, hl, rfl⟩
  | none =>
    have hrun := Module.fromFile_new hp hl
    rw [hs, loaded_colliding hf] at hrun
    exact ⟨_, _, hrun, rfl, List.lookup_cons_self, rfl⟩

theorem loadParser_colliding {folder : String} (hf : folder ∈ collidingFolders) {s : Session}
    (hs : s.world = collidingWorld) (ctx : Context) (hc : ctx.directory = ⟨"/", ["work"]⟩) : ∃ t v,
      (loadParser (.str (parserFrom folder)) ctx).runFrom s =
        (.ok ⟨parserFrom folder, v, some (collidingPath folder), ctx.name⟩, t) ∧
      t.world = collidingWorld ∧ t.registry.lookup collidingKey = some v ∧
      v = (s.registry.lookup collidingKey).getD (collidingModule folder) := by
  have hpath : isPathReference (parserFrom folder) = true := by revert folder; decide +kernel
  have hresolve : collidingWorld.resolve (Path.child ⟨"/", ["work"]⟩ (parserFrom folder)) =
      .ok (collidingPath folder) := by revert folder; decide +kernel
  have hdir : collidingWorld.isDirectory (collidingPath folder) = false := by revert folder; decide +kernel
  have hfile : collidingWorld.isFile (collidingPath folder) = true := by revert folder; decide +kernel
  have hstem : Text.swap '-' '_' (collidingPath folder).stem = "c" := by revert folder; decide +kernel
  have hname : ((collidingPath folder).name == Module.packageFile) = false := rfl
  obtain ⟨world, registry, imported, plugins, runs, journal⟩ := s
  subst hs
  obtain ⟨t, v, hrun, ht, hl, hv⟩ := fromFile_colliding hf (s := ⟨collidingWorld, registry, imported,
    plugins, runs, journal ++ [⟨Level.debug, Source.modules, "Loading module '" ++
      (collidingPath folder).stem ++ "' from " ++ (collidingPath folder).text⟩]⟩) rfl
  unfold loadParser
  dsimp only
  rw [if_pos hpath]
  simp only [Action.runFrom_bind, Action.runFrom_world, Action.runFrom_ofFault, hc, hresolve, mapError_ok,
    Module.loadPath?, hdir, hfile, hname, if_true, Bool.false_eq_true, if_false, Action.runFrom_debug, hstem]
  rw [hrun]
  exact ⟨_, v, rfl, ht, hl, hv⟩

/-- The elements of an override, by its place. -/
def overrideElements (r : Resolver) (extended : String → Context → Action (List Element)) (depth : Nat)
    (store : Shared) (ctx : Context) (o : Value × Nat) : Action (List Element) := do
  elements r extended depth o.1 (← Action.ofProblem (overrideContext store o.1 (ctx.atOverride o.2)))

/-- How a configuration without references is run in any session. -/
theorem elements_run (r : Resolver) (extended : String → Context → Action (List Element)) (depth : Nat)
    (config : Value) (m : Entries) {ctx : Context} {items : List Value} (own : List Element)
    (inner : List (List Element)) {s t u : Session} (hm : s.world.shared.view config = .mapping m)
    (hcheck : checkMembers s.world.shared m ctx = .ok ()) (hnames : references s.world.shared m ctx = .ok [])
    (hown : (ownElements r s.world.shared m ctx).runFrom s = (.ok own, t))
    (hitems : overrides s.world.shared m ctx = .ok items)
    (hinner : (items.zipIdx.mapM (overrideElements r extended depth s.world.shared ctx)).runFrom t =
      (.ok inner, u)) :
    (elements r extended (depth + 1) config ctx).runFrom s = (.ok (own ++ inner.flatten), u) := by
  unfold elements
  simp only [Action.runFrom_bind, Action.runFrom_shared, hm, Action.runFrom_ofProblem, hcheck, hnames, hitems,
    mapError_ok, List.mapM_nil, Action.runFrom_pure, hown]
  have hrun : (items.zipIdx.mapM fun (x : Value × Nat) => do
      elements r extended depth x.1
        (← Action.ofProblem (overrideContext s.world.shared x.1 (ctx.atOverride x.2)))).runFrom t =
        (.ok inner, u) := hinner
  rw [hrun]
  rfl

/-! ## Overrides with parsers -/

/-- An override with a parser. -/
def parsedBy (p : String × String) : Value :=
  overrideFor p.1 [(.str "parser", .str (parserFrom p.2))]

def parsing (parsers : List (String × String)) : Value :=
  withOverrides [ruleOf "semi"] (parsers.map parsedBy)

/-- The element of an override with a parser, by its place. -/
def parsedElement (v : Value) (p : (String × String) × Nat) : Element :=
  let name := "<input>#overrides[" ++ toString p.2 ++ "]"
  { kind := .config
    name
    node := {
      data := []
      parser := some ⟨parserFrom p.1.2, v, some (collidingPath p.1.2), name⟩
      criteria := some ⟨[⟨some [p.1.1], none⟩], some "/work"⟩ }
    file := none }

def semiElement : Element where
  kind := .config
  name := "<input>"
  node := { data := [ruleOf "semi"] }
  file := none

def inputContext : Context := { name := "<input>", directory := ⟨"/", ["work"]⟩ }

/-- Overrides for patterns that are allowed, with parsers whose keys are the same. -/
def Colliding (p : String × String) : Prop := Criteria.isConfined p.1 = true ∧ p.2 ∈ collidingFolders

instance (p : String × String) : Decidable (Colliding p) :=
  inferInstanceAs (Decidable (Criteria.isConfined p.1 = true ∧ p.2 ∈ collidingFolders))

variable (r : Resolver) (extended : String → Context → Action (List Element))

theorem given?_parserFrom {folder : String} (hf : folder ∈ collidingFolders) (pattern : String) :
    given? {} [(.str "files", .str pattern), (.str "parser", .str (parserFrom folder))] "parser" =
      some (.str (parserFrom folder)) := by
  simp only [collidingFolders, List.mem_cons, List.not_mem_nil, or_false] at hf
  rcases hf with rfl | rfl <;> rfl

theorem override_colliding (depth : Nat) {p : String × String} (hp : Colliding p) (i : Nat) {s : Session}
    (hs : s.world = collidingWorld) : ∃ t v,
      (overrideElements r extended (depth + 1) {} inputContext (parsedBy p, i)).runFrom s =
        (.ok [parsedElement v (p, i)], t) ∧
      t.world = collidingWorld ∧ t.registry.lookup collidingKey = some v ∧
      v = (s.registry.lookup collidingKey).getD (collidingModule p.2) := by
  obtain ⟨hconfined, hf⟩ := hp
  let ctx : Context := { inputContext with
    name := "<input>#overrides[" ++ toString i ++ "]"
    criteria := some ⟨[⟨some [p.1], none⟩], some "/work"⟩
    inOverride := true }
  have hcontext : overrideContext {} (parsedBy p) (inputContext.atOverride i) = .ok ctx := by
    refine overrideContext_eq_ok.mpr ⟨_, _, _, rfl, rfl, ?_, rfl⟩
    show Criteria.make {} (.str p.1) .null (some "/work") _ = .ok (some ⟨[⟨some [p.1], none⟩], some "/work"⟩)
    simp [Criteria.make, Criteria.patternList, Shared.view, hconfined]
  obtain ⟨t, v, hrun, ht⟩ := loadParser_colliding hf hs ctx rfl
  refine ⟨t, v, ?_, ht⟩
  have hstore : s.world.shared = {} := congrArg World.shared hs
  have hown : (ownElements r {} [(.str "files", .str p.1), (.str "parser", .str (parserFrom p.2))] ctx).runFrom s =
      (.ok [parsedElement v (p, i)], t) := by
    have hparser : (some <$> loadParser (.str (parserFrom p.2)) ctx).runFrom s =
        (.ok (some ⟨parserFrom p.2, v, some (collidingPath p.2), ctx.name⟩), t) := by
      rw [map_eq_pure_bind, Action.runFrom_bind, hrun]
      rfl
    have hplugins : given? {} [(.str "files", .str p.1), (.str "parser", .str (parserFrom p.2))] "plugins" =
        none := rfl
    unfold ownElements
    simp only [Action.runFrom_bind, given?_parserFrom hf, Option.mapM_some, hparser, hplugins, Option.mapM_none]
    rfl
  rw [overrideElements, Action.runFrom_bind, Action.runFrom_ofProblem, hcontext]
  rw [← hstore] at hown
  exact elements_run r extended depth (parsedBy p) _ _ [] (by rw [hstore]; rfl) (by rw [hstore]; rfl)
    (by rw [hstore]; rfl) hown (by rw [hstore]; rfl) rfl

/-- The first parser that is loaded stands for all of them. -/
theorem overrides_colliding (depth : Nat) {parsers : List (String × String)} (hp : ∀ p ∈ parsers, Colliding p)
    (i : Nat) {s : Session} (hs : s.world = collidingWorld) {v : Value}
    (hv : ∀ p ∈ parsers.head?, v = (s.registry.lookup collidingKey).getD (collidingModule p.2)) :
    ∃ t, (((parsers.map parsedBy).zipIdx i).mapM
        (overrideElements r extended (depth + 1) {} inputContext)).runFrom s =
      (.ok ((parsers.zipIdx i).map fun p => [parsedElement v p]), t) ∧ t.world = collidingWorld ∧
      (parsers ≠ [] ∨ s.registry.lookup collidingKey = some v → t.registry.lookup collidingKey = some v) := by
  induction parsers generalizing i s with
  | nil => exact ⟨s, rfl, hs, fun h => h.resolve_left fun hne => hne rfl⟩
  | cons p rest ih =>
    obtain ⟨t, v', hrun, ht, hl, hv'⟩ := override_colliding r extended depth
      (hp p (by simp)) i hs
    obtain rfl : v = v' := (hv p rfl).trans hv'.symm
    obtain ⟨u, hrest, hu, hlast⟩ := ih (fun q hq => hp q (List.mem_cons_of_mem _ hq)) (i + 1) ht
      (fun q _ => by rw [hl]; rfl)
    refine ⟨u, ?_, hu, fun _ => hlast (.inr hl)⟩
    rw [List.map_cons, List.zipIdx_cons, List.mapM_cons, Action.runFrom_bind, hrun]
    simp only [Action.runFrom_bind, hrest, Action.runFrom_pure, List.zipIdx_cons, List.map_cons]

/-- In the colliding world the module that is loaded first is the parser of every
override from then on, also of a configuration with a rule. -/
theorem resolve_overrides_colliding (hr : r.base = ⟨"/", ["work"]⟩) {members : Entries}
    (hmembers : members = [] ∨ members = [ruleOf "semi"]) (parsers : List (String × String))
    (hne : parsers ≠ []) (hp : ∀ p ∈ parsers, Colliding p) {s : Session} (hs : s.world = collidingWorld)
    {v : Value} (hv : ∀ p ∈ parsers.head?, v = (s.registry.lookup collidingKey).getD (collidingModule p.2)) :
    ∃ t, (r.resolve (withOverrides members (parsers.map parsedBy)) "<input>" none).runFrom s =
        (.ok ({ semiElement with node := { data := members } } :: parsers.zipIdx.map (parsedElement v)), t) ∧
      t.world = collidingWorld ∧ t.registry.lookup collidingKey = some v := by
  let m : Entries := members ++ [(.str "overrides", .list (parsers.map parsedBy))]
  have hstore : s.world.shared = {} := congrArg World.shared hs
  have hitems : overrides {} m inputContext = .ok (parsers.map parsedBy) := by
    refine overrides_eq_ok.mpr (.inr ⟨.list (parsers.map parsedBy), ?_, rfl⟩)
    cases parsers with
    | nil => exact absurd rfl hne
    | cons first rest => rcases hmembers with rfl | rfl <;> rfl
  -- only the overrides load modules, so that the configuration itself changes nothing
  obtain ⟨t, hinner, ht, hl⟩ := overrides_colliding r (fun reference ctx =>
    loadExtended r reference ctx >>= fun e => elementsTo r (loadExtended r)
      (chainBound s.world (withOverrides members (parsers.map parsedBy)) - 1) e.1 e.2)
    (depthOfEntries m) hp 0 hs hv
  refine ⟨t, ?_, ht, hl (.inl hne)⟩
  have hdepth : depthBound s.world.shared (withOverrides members (parsers.map parsedBy)) =
      depthOfEntries m + 1 + 1 := by
    rw [hstore]
    rfl
  have hcheck : checkMembers {} m inputContext = .ok () := by rcases hmembers with rfl | rfl <;> rfl
  have hnames : references {} m inputContext = .ok [] := by rcases hmembers with rfl | rfl <;> rfl
  have hown : (ownElements r {} m inputContext).runFrom s =
      (.ok [{ semiElement with node := { data := members } }], s) := by
    rcases hmembers with rfl | rfl <;> rfl
  rw [← hstore] at hinner hitems hcheck hnames hown
  have hrun := elements_run r _ (depthOfEntries m + 1)
    (withOverrides members (parsers.map parsedBy)) m _ _ rfl hcheck hnames hown hitems hinner
  unfold Resolver.resolve Resolver.resolveWith
  simp only [Action.runFrom_bind, Action.runFrom_world, Option.mapM_none, Action.runFrom_pure, Option.map_none,
    Option.getD_none, Option.toList_none, hr]
  rw [chainBound, elementsTo, Action.runFrom_bind, Action.runFrom_shared]
  simp only [hdepth]
  rw [← List.flatMap_def, ← List.map_eq_flatMap] at hrun
  exact hrun

theorem resolve_colliding (hr : r.base = ⟨"/", ["work"]⟩) (parsers : List (String × String))
    (hne : parsers ≠ []) (hp : ∀ p ∈ parsers, Colliding p) {s : Session} (hs : s.world = collidingWorld)
    {v : Value} (hv : ∀ p ∈ parsers.head?, v = (s.registry.lookup collidingKey).getD (collidingModule p.2)) :
    ∃ t, (r.resolve (parsing parsers) "<input>" none).runFrom s =
        (.ok (semiElement :: parsers.zipIdx.map (parsedElement v)), t) ∧
      t.world = collidingWorld ∧ t.registry.lookup collidingKey = some v :=
  resolve_overrides_colliding r hr (.inr rfl) parsers hne hp hs hv

end Cascade.Resolution
