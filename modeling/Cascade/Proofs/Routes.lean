import Cascade.Proofs.SoleReference

/-! # A configuration file by every route

A configuration file is the same whether it is read by itself or a configuration
refers to its path. The routes to it give different names and chains, on which the
items do not depend; all else that a configuration depends on comes from the path
of the file. -/
namespace Cascade

open Resolution

namespace Resolution

variable {r : Resolver} {w : World} {ctx : Context} {reference : String} {es : List Element}

/-! ## The place of a reference -/

/-- A reference of a configuration by its place, with the elements of what the
configuration has before and after what the reference leads to. -/
inductive Around (r : Resolver) (w : World) :
    Extended → Nat → String → List Element → List Element → Prop where
  | intro {config : Value} {ctx : Context} {m : Entries} {front back : List String} {reference : String}
      {items : List Value} {before outer own inner : List Element} :
      w.shared.view config = .mapping m → references w.shared m ctx = .ok (front ++ reference :: back) →
      Each (FromReference r w ctx) front before → Each (FromReference r w ctx) back outer →
      (ownElements r w.shared m ctx).outcome w = .ok own → overrides w.shared m ctx = .ok items →
      Each (FromOverride r w ctx) items.zipIdx inner →
      Around r w (config, ctx) front.length reference before (outer ++ own ++ inner)

/-- The reference at a place is resolved in a context: it is one of a configuration,
or of one that this extends, outside of overrides. -/
inductive Refers (r : Resolver) (w : World) : Extended → List Nat → Context → String → Prop where
  | here {config : Value} {ctx : Context} {m : Entries} {names : List String} {i : Nat} {reference : String} :
      w.shared.view config = .mapping m → references w.shared m ctx = .ok names →
      names[i]? = some reference → Refers r w (config, ctx) [i] ctx reference
  | on {config : Value} {ctx ctx' : Context} {m : Entries} {names : List String} {i : Nat}
      {reference reference' : String} {e : Extended} {places : List Nat} :
      w.shared.view config = .mapping m → references w.shared m ctx = .ok names →
      names[i]? = some reference → (loadExtended r reference ctx).outcome w = .ok e →
      Refers r w e places ctx' reference' → Refers r w (config, ctx) (i :: places) ctx' reference'

/-- The elements that the reference at a place contributes to a configuration, and
those before and after them. -/
inductive Contributes (r : Resolver) (w : World) :
    Extended → List Nat → List Element → List Element → List Element → Prop where
  | here {start : Extended} {i : Nat} {reference : String} {before block after : List Element} :
      Around r w start i reference before after → FromReference r w start.2 reference block →
      Contributes r w start [i] before block after
  | on {start e : Extended} {i : Nat} {reference : String} {places : List Nat}
      {before before' block after after' : List Element} : Around r w start i reference before after →
      (loadExtended r reference start.2).outcome w = .ok e → Contributes r w e places before' block after' →
      Contributes r w start (i :: places) (before ++ before') block (after' ++ after)

/-- The elements of a configuration are those of what a reference of it leads to,
and others around them. -/
theorem Resolves.around {config : Value} {m : Entries} (h : Resolves r w config ctx es)
    (hm : w.shared.view config = .mapping m) {names : List String}
    (hnames : references w.shared m ctx = .ok names) {i : Nat} (hi : names[i]? = some reference) :
    ∃ before block after, Around r w (config, ctx) i reference before after ∧
      FromReference r w ctx reference block ∧ es = before ++ block ++ after := by
  obtain ⟨_, _, outer, own, items, inner, hm', -, hnames', houter, hown, hitems, hinner, rfl⟩ :=
    resolves_iff.mp h
  cases hm.symm.trans hm'
  cases hnames.symm.trans hnames'
  obtain ⟨front, back, rfl, rfl⟩ : ∃ front back, names = front ++ reference :: back ∧ front.length = i := by
    obtain ⟨hlt, rfl⟩ := List.getElem?_eq_some_iff.mp hi
    refine ⟨names.take i, names.drop (i + 1), ?_, List.length_take_of_le (Nat.le_of_lt hlt)⟩
    rw [← List.drop_eq_getElem_cons hlt, List.take_append_drop]
  obtain ⟨before, _, hbefore, hrest, rfl⟩ := houter.of_append
  cases hrest with
  | @cons _ _ block outer hblock hback =>
    exact ⟨before, block, _, .intro hm hnames hbefore hback hown hitems hinner, hblock,
      by simp only [List.append_assoc]⟩

/-- A configuration that has elements has those that any reference contributes, in
one piece. -/
theorem Resolves.contributes {start : Extended} (h : Resolves r w start.1 start.2 es) {places : List Nat}
    (href : Refers r w start places ctx reference) : ∃ before block after,
      Contributes r w start places before block after ∧ FromReference r w ctx reference block ∧
      ctx.criteria = start.2.criteria ∧ es = before ++ block ++ after := by
  induction href generalizing es with
  | here hm hnames hi =>
    obtain ⟨before, block, after, haround, hblock, heq⟩ := h.around hm hnames hi
    exact ⟨before, block, after, .here haround hblock, hblock, rfl, heq⟩
  | on hm hnames hi he _ ih =>
    obtain ⟨before, block, after, haround, ⟨e', he', hres⟩, rfl⟩ := h.around hm hnames hi
    cases he.symm.trans he'
    obtain ⟨before', block, after', hinner, hblock, hcriteria, rfl⟩ := ih hres
    refine ⟨before ++ before', block, after' ++ after, .on haround he hinner, hblock, ?_, ?_⟩
    · rw [hcriteria, (loadExtended_criteria (r := r) _ _).of_outcome he]
    · simp only [List.append_assoc]

end Resolution

namespace Flattener

variable {f : Flattener} {w : World} {ctx : Context} {reference : String} {file : Path} {items : List Value}
  {a : Action (List Value)} {start : Extended}

/-! ## Translations -/

/-- What a flattener is asked for, and the configuration that it starts with. -/
inductive Translation (f : Flattener) (w : World) : Action (List Value) → Extended → Prop where
  | config (config : Value) : Translation f w (f.config config) (config, f.inputOf)
  | configFile {file path : Path} {m : Entries} : ConfigFile.load w (f.resolver.base.join file) = .ok m →
      w.resolve (f.resolver.base.join file) = .ok path → Translation f w (f.configFile file)
        (.mapping m, startContext f.resolver (f.resolver.base.join file).name (some path))

theorem Translation.settled (hw : w.ModulesApart) (h : f.Translation w a start) : Settled f.resolver w a := by
  cases h with
  | config config => exact config_settled hw config
  | configFile _ _ => exact configFile_settled hw _

theorem Translation.criteria (h : f.Translation w a start) : start.2.criteria = none := by
  cases h <;> rfl

theorem Translation.resolves (hw : w.ModulesApart) (h : f.Translation w a start)
    (hitems : a.outcome w = .ok items) :
    ∃ es, Resolves f.resolver w start.1 start.2 es ∧ (f.flatten es).outcome w = .ok items := by
  cases h with
  | config config => exact (config_eq_ok hw).mp hitems
  | configFile hl hpath =>
    obtain ⟨m, path, es, hl', hpath', hes⟩ := (configFile_eq_ok hw).mp hitems
    cases hl.symm.trans hl'
    cases hpath.symm.trans hpath'
    exact ⟨es, hes⟩

/-! ## The routes to a file -/

theorem configFile_of_reference (hw : w.ModulesApart) (hp : PathTo w ctx.directory reference file)
    (hc : ctx.criteria = none) (h : f.Flattened w (FromReference f.resolver w ctx reference) items) :
    (f.configFile file).outcome w = .ok items := by
  obtain ⟨es, hes, hitems⟩ := h
  obtain ⟨m, es', hl, hres, heq⟩ := hes.resolves_file hw hp hc
  have hjoin : f.resolver.base.join file = file := Path.join_of_isResolved hp.isResolved
  refine (configFile_eq_ok hw).mpr ⟨m, file, es', ?_, ?_, ?_, ?_⟩
  · rw [hjoin, hl]
  · rw [hjoin]
    exact Path.resolve_of_resolved hp.resolves
  · rw [hjoin]
    exact hres
  · rw [← flatten_anonymous heq, hitems]

/-- The elements and the items of a translation, of which those that the reference at
a place contributes make one piece. -/
structure OnePiece (f : Flattener) (w : World) (start : Extended) (places : List Nat)
    (before block after : List Element) (items front piece back : List Value) : Prop where
  elements : Resolves f.resolver w start.1 start.2 (before ++ block ++ after)
  contributed : Contributes f.resolver w start places before block after
  ofBefore : (f.flatten before).outcome w = .ok front
  ofBlock : (f.flatten block).outcome w = .ok piece
  ofAfter : (f.flatten after).outcome w = .ok back
  joined : items = front ++ piece ++ back

theorem Translation.onePiece (hw : w.ModulesApart) (h : f.Translation w a start)
    (hitems : a.outcome w = .ok items) {places : List Nat}
    (href : Refers f.resolver w start places ctx reference) (hp : PathTo w ctx.directory reference file) :
    ∃ before block after front piece back,
      f.OnePiece w start places before block after items front piece back ∧
      (f.configFile file).outcome w = .ok piece := by
  obtain ⟨es, hres, hflat⟩ := h.resolves hw hitems
  obtain ⟨before, block, after, hplace, hblock, hcriteria, rfl⟩ := hres.contributes href
  obtain ⟨_, back, hrest, hback, rfl⟩ := flatten_append.mp hflat
  obtain ⟨front, piece, hfront, hpiece, rfl⟩ := flatten_append.mp hrest
  exact ⟨before, block, after, front, piece, back, ⟨hres, hplace, hfront, hpiece, hback, rfl⟩,
    configFile_of_reference hw hp (hcriteria.trans h.criteria) ⟨block, hblock, hpiece⟩⟩

def fileWorld : World where
  here := ["work"]
  entries := [(["work", "base.json"], textFile "\x7b\"rules\": \x7b\"curly\": 1\x7d\x7d")]

def baseFile : Path := ⟨"/", ["work", "base.json"]⟩

/-- A configuration with a member besides its references. -/
def onTopOf (names : List String) : Value := combined [ruleOf "semi"] names []

/-- Modules in each other's way, and files for which they are loaded. -/
def boundWorld : World := { bindingWorld with
  entries := bindingWorld.entries ++ [
    (["work", "own.json"], textFile "\x7b\"extends\": \"a\", \"parser\": \"eslint-config-a/config\"\x7d"),
    (["work", "parsed.json"], textFile "\x7b\"parser\": \"eslint-plugin-p/plugin\"\x7d"),
    (["work", "plugged.json"], textFile "\x7b\"extends\": \"plugin:p/c\"\x7d")] }

def pluggedFile : Path := ⟨"/", ["work", "plugged.json"]⟩

theorem exists_of_rulesIn {x : Except Failure (List Value)} {rules : List (List String)}
    (h : (x.toOption.map fun items => items.map rulesIn) = some rules) :
    ∃ items, x = .ok items ∧ items.map rulesIn = rules := exists_ok_of_map h

end Flattener

end Cascade
