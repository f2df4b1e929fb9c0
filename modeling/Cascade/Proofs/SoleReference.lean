import Cascade.Proofs.Composition
import Cascade.Proofs.Resolution.Bounds
import Cascade.Proofs.Resolution.PathReference
import Cascade.Proofs.Resolution.Reentry

/-! # A file and the only reference to it

Reading a configuration file by itself and extending with its path look at the same
file in the same way. The elements that are found have other names, and are looked
for within other bounds; neither matters, whatever modules the world has and whatever
the flattener was used for before. -/
namespace Cascade

open Resolution

namespace Flattener

variable {f : Flattener} {w : World} {ctx : Context} {reference : String} {file : Path} {items : List Value}

/-! ## Steps that only record -/

theorem itemsOf_quiet (e : Element) : Quiet w (f.itemsOf e) := by
  unfold itemsOf
  cases e.kind with
  | config => exact Quiet.shared.bind fun _ _ => .ofLogged _
  | implicitProcessor => exact (Quiet.debug _ _).bind fun _ _ => .pure _

theorem flatten_quiet (es : List Element) : Quiet w (f.flatten es) := by
  unfold flatten
  exact (Quiet.mapM fun e _ => itemsOf_quiet e).bind fun _ _ => .pure _

/-- Sessions that are alike, which have loaded nothing but what there is. -/
def SourcedAlike (w : World) (s t : Session) : Prop := s.Alike w t ∧ s.Sourced w

theorem unrecorded_sourcedAlike : Unrecorded w (SourcedAlike w) where
  world := fun h => unrecorded_alike.world h.1
  recorded := by
    rintro s t ⟨hst, hs⟩ journal journal'
    exact ⟨unrecorded_alike.recorded hst journal journal',
      ⟨⟨hs.world, hs.imported⟩, hs.registry, hs.plugins⟩⟩

/-- What is read of a configuration file before its elements are looked for. -/
def opened (path : Path) : Action (World × Value × Path) := do
  Action.debug Source.resolver ("Loading config file: " ++ path.text)
  let config ← fileConfig path
  let w ← Action.world
  return (w, config, ← Action.ofFault (w.resolve path))

theorem opened_quiet (path : Path) : Quiet w (opened path) := by
  unfold opened
  refine (Quiet.debug _ _).bind fun _ _ => (fileConfig_quiet path).bind fun config _ => ?_
  exact Quiet.world.bind fun _ _ => (Quiet.ofFault _).bind fun _ _ => .pure _

theorem opened_eq_ok {path : Path} {x : World × Value × Path} : (opened path).outcome w = .ok x ↔
    ∃ m q, ConfigFile.load w path = .ok m ∧ w.resolve path = .ok q ∧ x = (w, .mapping m, q) := by
  have hlast : ∀ config, Quiet w (do
      let w ← Action.world
      return (w, config, ← Action.ofFault (w.resolve path)) : Action (World × Value × Path)) := fun config =>
    Quiet.world.bind fun _ _ => (Quiet.ofFault _).bind fun _ _ => .pure _
  have houtcome : (opened path).outcome w = (ConfigFile.load w path).map Value.mapping >>= fun config =>
      (w.resolve path).mapError .fault >>= fun q => .ok (w, config, q) := by
    rw [opened, (Quiet.debug _ _).outcome_bind fun _ _ => (fileConfig_quiet path).bind fun config _ => hlast config,
      (fileConfig_quiet path).outcome_bind fun config _ => hlast config, fileConfig_outcome]
    simp only [outcome_world, outcome_ofFault_bind]
    rfl
  rw [houtcome]
  cases ConfigFile.load w path with
  | error e => simp
  | ok m => cases w.resolve path <;> simp [eq_comm]

theorem configFile_eq (f : Flattener) (path : Path) : f.configFile path = (do
    let (w, config, file) ← opened (f.resolver.base.join path)
    let es ← elementsTo f.resolver (loadExtended f.resolver) (chainBound w config) config
      (startContext f.resolver (f.resolver.base.join path).name (some file))
    f.flatten es) := by
  simp only [configFile, Resolver.resolveFile, Resolver.resolve, Resolver.resolveWith, opened, bind_assoc,
    pure_bind, Option.mapM_some, startContext, bind_map_left]

theorem extends_eq (f : Flattener) (reference : String) : f.extends_ [.str reference] = (do
    let w ← Action.world
    let es ← elementsTo f.resolver (loadExtended f.resolver)
      (chainBound w (member "extends" (.list [.str reference]))) (member "extends" (.list [.str reference]))
      f.inputOf
    f.flatten es) := by
  simp only [extends_, Flattener.config, Resolver.resolve, Resolver.resolveWith, bind_assoc, pure_bind,
    Option.mapM_none]
  rfl

theorem ownElements_quiet_bare (r : Resolver) (store : Shared) (ctx : Context) :
    Quiet w (ownElements r store [] ctx) := by
  unfold ownElements
  refine (Quiet.pure none).bind fun _ _ => (Quiet.pure none).bind fun plugins hplugins => ?_
  cases hplugins
  refine Quiet.bind ?_ fun _ _ => (Quiet.ofProblem _).bind fun _ _ => .pure _
  exact Quiet.shared.bind fun _ _ => (Quiet.pure _).bind fun _ _ => .pure _

/-- A configuration that has one reference only does what that leads to. -/
theorem agree_reference {α β γ : Type} {r : Resolver} {J : Session → Session → Prop}
    {E : Failure → Failure → Prop} {S : γ → Extended → Prop} {Q : List Element → List Element → Prop}
    {R : α → β → Prop} (hj : Unrecorded w J) (hne : reference ≠ "") {steps : Nat} {a : Action γ}
    {b : γ → Action (List Element)} {k : List Element → Action α} {k' : List Element → Action β}
    (ha : Agree J E a (loadExtended r reference ctx) S)
    (hb : ∀ x e, S x e → Agree J E (b x) (elementsTo r (loadExtended r) steps e.1 e.2) Q)
    (hk : ∀ es es', Q es es' → Agree J E (k es) (k' (es' ++ [bareElement ctx])) R) :
    Agree J E (do
        let x ← a
        let es ← b x
        k es)
      (do
        let es ← elementsTo r (loadExtended r) (steps + 1) (member "extends" (.list [.str reference])) ctx
        k' es) R := by
  have hnames : references w.shared [(.str "extends", .list [.str reference])] ctx = .ok [reference] := by
    have hlisted : Entries.field? [(.str "extends", .list [.str reference])] "extends" =
        some (.list ([reference].map .str)) := rfl
    rw [references_listed hlisted, List.filter_cons_of_pos (by simpa using hne)]
    rfl
  have hown : ownElements r w.shared [(.str "extends", .list [.str reference])] ctx =
      ownElements r w.shared [] ctx := by
    refine ownElements_congr (fun key he ho => ?_) ctx
    rw [field?_part (by simp [Entries.keys, partKeys]) (by simp [partKeys, he, ho])]
    rfl
  simp only [elementsTo, bind_assoc]
  refine Quiet.shared.agree_right hj (x := w.shared) rfl ?_
  rw [depthBound, elements, bind_assoc]
  refine Quiet.shared.agree_right hj (x := w.shared) rfl ?_
  simp only [member, Shared.view, bind_assoc, hown]
  refine (Quiet.ofProblem _).agree_right hj (x := ()) rfl ?_
  refine (Quiet.ofProblem _).agree_right hj (x := [reference]) (by rw [hnames]; rfl) ?_
  simp only [List.mapM_cons, List.mapM_nil, bind_assoc, pure_bind]
  refine ha.bind fun x e hx => (hb x e hx).bind fun es es' hes => ?_
  refine (ownElements_quiet_bare r w.shared ctx).agree_right hj ownElements_bare ?_
  refine (Quiet.ofProblem _).agree_right hj (x := []) (by rw [overrides_absent rfl]; rfl) ?_
  simp only [List.zipIdx_nil, List.mapM_nil, pure_bind, List.flatten_cons, List.flatten_nil, List.append_nil]
  exact hk es es' hes

/-! ## A file below the base directory -/

/-- A path below the base directory to what is no module. -/
structure FilePath (text : String) : Prop where
  relative : (Path.ofString text).root = ""
  down : ".." ∉ (Path.ofString text).names
  named : (Path.ofString text).names ≠ []
  notModule : Text.endsWith (Path.ofString text).name ".py" = false

theorem byPath_dot (s : String) : ByPath ("./" ++ s) where
  notRules := by
    simp only [sentinels, List.contains_iff_mem, List.mem_cons, List.not_mem_nil, or_false, not_or]
    refine ⟨fun h => ?_, fun h => ?_⟩
    · simpa using congrArg String.toList h
    · simpa using congrArg String.toList h
  notPlugin := by simp [Text.startsWith]
  isPath := by simp [isPathReference, Text.startsWith]

theorem chainBound_add (w : World) (config : Value) :
    chainBound w config = chainBound w .null + 2 * (Probe.texts.found config).length := by
  simp only [chainBound, textsAround, List.length_append, Probe.found, Probe.leaf_null, List.length_nil]
  omega

theorem chainBound_lt_extends (w : World) (reference : String) :
    chainBound w .null < chainBound w (member "extends" (.list [.str reference])) := by
  rw [chainBound_add w (member _ _)]
  simp [member, Probe.found, Probe.foundInEntries, Probe.foundInItems, Probe.texts, Value.str?]

/-- What a file contains has the same elements by itself and for a reference that is
the first one, but for names, within any bounds that are wide enough. -/
theorem elementsTo_agree_referred {q : Path} {m : Entries} (hq : q.IsResolved)
    (hl : ConfigFile.load w q = .ok m) {steps steps' : Nat} (hs : chainBound w .null ≤ steps)
    (hs' : chainBound w .null ≤ steps') (name : String) :
    Agrees (SourcedAlike w) False
      (elementsTo f.resolver (loadExtended f.resolver) steps (.mapping m)
        (startContext f.resolver name (some q)))
      (elementsTo f.resolver (loadExtended f.resolver) steps' (.mapping m) (f.inputOf.referred reference q))
      (Like False (List.map Element.anonymous)) := by
  rintro s t ⟨hst, hsourced⟩
  have hcov := covers_textsAround w .null
  have hf : Probe.texts.found (.mapping m) ⊆ textsAround w .null := hcov.file hq hl
  have hbound : unused (identities w (textsAround w .null)) [q.text] < chainBound w .null :=
    Nat.lt_of_le_of_lt (unused_le _ _) (identities_length w .null)
  have hcoincide : Coincide (Session.Sourced w)
      (elementsTo f.resolver (loadExtended f.resolver) steps (.mapping m)
        (startContext f.resolver name (some q)))
      (elementsTo f.resolver (loadExtended f.resolver) steps' (.mapping m)
        (startContext f.resolver name (some q))) fun _ => True :=
    elementsTo_coincide hcov (Nat.lt_of_lt_of_le hbound hs) (Nat.lt_of_lt_of_le hbound hs') hf
      (by simp [startContext])
  have hrenamed : Renamed False (startContext f.resolver name (some q)) (f.inputOf.referred reference q) :=
    ⟨(f.inputOf.referred reference q).name, rfl, False.elim⟩
  obtain ⟨heq, hkept, -⟩ := hcoincide s hsourced
  obtain ⟨halike, hm⟩ := elementsTo_agrees interchangeable_alike
    (loadExtended_agrees (r := f.resolver) interchangeable_alike) steps' (.mapping m) hrenamed s t hst
  rw [heq] at halike hm
  exact ⟨⟨halike, hkept⟩, hm⟩

section Below

variable {s : String} (hs : FilePath s)
include hs

theorem FilePath.child_dot : f.inputOf.directory.child ("./" ++ s) = f.resolver.base.join (Path.ofString s) := by
  show f.resolver.base.join (Path.ofString ("./" ++ s)) = _
  rw [Path.ofString_dot hs.relative]

theorem FilePath.name_resolve {q : Path} (hq : w.resolve (f.resolver.base.join (Path.ofString s)) = .ok q) :
    q.name = (f.resolver.base.join (Path.ofString s)).name :=
  Path.keepsName_join hs.relative hs.down hs.named _ q hq

theorem FilePath.suffix_resolve (q : Path) (hq : w.resolve (f.inputOf.directory.child ("./" ++ s)) = .ok q) :
    q.suffix ≠ ".py" := by
  intro h
  rw [hs.child_dot] at hq
  have hends := Path.endsWith_of_suffix h
  rw [hs.name_resolve hq, Path.name_join hs.relative hs.named, hs.notModule] at hends
  cases hends

/-- Opening the file and loading the reference give one configuration, from one file. -/
theorem FilePath.opened_agree (hbase : w.isDirectory f.resolver.base = true) :
    Agrees (SourcedAlike w) False (opened (f.resolver.base.join (Path.ofString s)))
      (loadExtended f.resolver ("./" ++ s) f.inputOf) fun x e => ∃ m q, ConfigFile.load w q = .ok m ∧
        q.IsResolved ∧ x = (w, .mapping m, q) ∧ e = (.mapping m, f.inputOf.referred ("./" ++ s) q) := by
  refine (opened_quiet _).agree unrecorded_sourcedAlike
    (loadExtended_quiet hs.suffix_resolve (byPath_dot s)) (matches_of_ok (fun _ _ => False.elim) ?_ ?_)
  · intro x hx
    obtain ⟨m, q, hl, hq, rfl⟩ := opened_eq_ok.mp hx
    have hload := ConfigFile.load_congr (World.find?_resolve_below hbase hs.relative hs.down hq) (hs.name_resolve hq) hl
    have hresolve := hs.child_dot.symm ▸ hq
    exact ⟨_, (loadExtended_eq_ok hs.suffix_resolve (byPath_dot s)).mpr
      ⟨q, m, ⟨byPath_dot s, hresolve, hs.suffix_resolve q hresolve⟩, hload, List.not_mem_nil, rfl⟩,
      m, q, hload, Path.isResolved_of_resolve hq, rfl, rfl⟩
  · intro e he
    obtain ⟨q, m, hp, hl, -, -⟩ := (loadExtended_eq_ok hs.suffix_resolve (byPath_dot s)).mp he
    have hq := hs.child_dot ▸ hp.resolves
    exact ⟨_, opened_eq_ok.mpr ⟨m, q, ConfigFile.load_congr
      (World.find?_resolve_below hbase hs.relative hs.down hq).symm (hs.name_resolve hq).symm hl, hq, rfl⟩⟩

end Below

/-- Elements that differ in their names have the same items, and a bare one adds none. -/
theorem flatten_agree {es es' : List Element} (hes : Like False (List.map Element.anonymous) es es') :
    Agrees (SourcedAlike w) False (f.flatten es) (f.flatten (es' ++ [bareElement f.inputOf])) Eq := by
  refine (flatten_quiet es).agree unrecorded_sourcedAlike (flatten_quiet _)
    (matches_of_ok (fun _ _ => False.elim) ?_ ?_)
  · intro items hitems
    rw [flatten_anonymous hes.erased] at hitems
    exact ⟨items, flatten_append.mpr ⟨items, [], hitems, rfl, (List.append_nil items).symm⟩, rfl⟩
  · intro items hitems
    obtain ⟨front, _, hfront, -, -⟩ := flatten_append.mp hitems
    exact ⟨front, by rw [flatten_anonymous hes.erased, hfront]⟩

/-- A file is read in the same way by itself and for the only reference of a
configuration, whatever was loaded before. -/
theorem configFile_agrees_extends (hbase : w.isDirectory f.resolver.base = true) {s : String} (hs : FilePath s) :
    Agrees (SourcedAlike w) False (f.configFile (Path.ofString s))
      (f.extends_ [.str ("./" ++ s)]) Eq := by
  obtain ⟨steps, hsteps⟩ : ∃ n, chainBound w (member "extends" (.list [.str ("./" ++ s)])) = n + 1 := ⟨_, rfl⟩
  rw [configFile_eq, extends_eq]
  refine Quiet.world.agree_right unrecorded_sourcedAlike (x := w) rfl ?_
  rw [hsteps]
  refine agree_reference unrecorded_sourcedAlike (by simp) (hs.opened_agree hbase) ?_ fun _ _ hes => flatten_agree hes
  rintro _ _ ⟨m, q, hl, hq, rfl, rfl⟩
  -- the two bounds differ, and either is enough for what the file leads to
  have hless := chainBound_lt_extends w ("./" ++ s)
  exact elementsTo_agree_referred hq hl (chainBound_add w (.mapping m) ▸ Nat.le_add_right _ _) (by omega) _

/-! ## Sessions of a flattener -/

theorem yields_of_quiet {α : Type} {a : Action α} (h : Quiet w a) :
    Yields (Session.Sourced w) (fun _ => True) a fun _ => True := by
  intro s hs
  obtain ⟨journal, hrun⟩ := h s hs.world
  rw [hrun]
  refine ⟨⟨⟨hs.world, hs.imported⟩, hs.registry, hs.plugins⟩, ?_⟩
  cases a.outcome w <;> trivial

theorem Reached.sourced {s : Session} (h : f.Reached w s) : s.Sourced w := by
  have hresolve : ∀ config name file, Yields (Session.Sourced w) (fun _ => True)
      (f.resolver.resolve config name file) fun _ => True :=
    fun config name file => (resolve_reports f.resolver config name file).weaken fun _ _ => trivial
  have hflatten : ∀ es, Yields (Session.Sourced w) (fun _ => True) (f.flatten es) fun _ => True :=
    fun es => yields_of_quiet (flatten_quiet es)
  induction h with
  | start => exact Session.sourced_start w
  | config config _ ih => exact (((hresolve config _ _).bind fun es _ => hflatten es) _ ih).1
  | configFile file _ ih =>
    have hfile : Yields (Session.Sourced w) (fun _ => True) (f.resolver.resolveFile file) fun _ => True :=
      (yields_of_quiet (.debug _ _)).bind fun _ _ => (yields_of_quiet (fileConfig_quiet _)).bind
        fun config _ => hresolve config _ _
    exact ((hfile.bind fun es _ => hflatten es) _ ih).1

end Flattener

end Cascade
