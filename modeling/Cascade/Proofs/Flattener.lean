import Cascade.Flattener
import Cascade.Proofs.Conversion.Importer
import Cascade.Proofs.Resolution.Derivation

/-! # Sessions of a flattener

A flattener is used for one configuration after another, some of which it does
not accept. Whatever it was used for before, it gives the same items for a
configuration as it does at first: those of its elements, one after the other,
which do not depend on names. -/
namespace Cascade

open Conversion Resolution

theorem Settled.ofLogged {α : Type} {r : Resolver} {w : World} (x : Logged α) :
    Settled r w (Action.ofLogged x) :=
  fun _ hs => ⟨⟨hs.world, hs.registry, hs.imported, hs.available, hs.plugins⟩, rfl⟩

namespace Flattener

variable {f : Flattener} {w : World}

theorem itemsOf_settled (e : Element) : Settled f.resolver w (f.itemsOf e) := by
  unfold itemsOf
  cases e.kind with
  | config => exact Settled.shared.bind fun _ _ => .ofLogged _
  | implicitProcessor => exact (Settled.debug _ _).bind fun _ _ => .pure _

theorem flatten_settled (elements : List Element) : Settled f.resolver w (f.flatten elements) := by
  unfold flatten
  exact (Settled.mapM fun e _ => itemsOf_settled e).bind fun _ _ => .pure _

/-! ## The items of elements -/

theorem itemsOf_outcome (e : Element) : (f.itemsOf e).outcome w = match e.kind with
    | .config => (convert ⟨f.table, w.shared⟩ e.node.value).result
    | .implicitProcessor => .ok [] := by
  obtain ⟨kind, name, node, file⟩ := e
  cases kind <;> rfl

theorem itemsOf_anonymous {e e' : Element} (h : e.anonymous = e'.anonymous) :
    (f.itemsOf e).outcome w = (f.itemsOf e').outcome w := by
  have hkind : e.kind = e'.kind := show e.anonymous.kind = e'.anonymous.kind by rw [h]
  have hnode : e.node.anonymous = e'.node.anonymous :=
    show e.anonymous.node = e'.anonymous.node by rw [h]
  rw [itemsOf_outcome, itemsOf_outcome, hkind, ← convert_anonymous e.node, hnode, convert_anonymous]

theorem flatten_outcome (es : List Element) : (f.flatten es).outcome w =
    (es.mapM fun e => (f.itemsOf e).outcome w).map List.flatten := by
  rw [flatten, (Settled.mapM (r := f.resolver) fun e _ => itemsOf_settled e).outcome_bind fun _ _ => .pure _,
    Settled.outcome_mapM fun e _ => itemsOf_settled (f := f) e]
  cases es.mapM fun e => (f.itemsOf e).outcome w <;> rfl

theorem flatten_nil : (f.flatten []).outcome w = .ok [] := rfl

/-- Elements have items when all parts of them have. -/
theorem flatten_append {es es' : List Element} {items : List Value} :
    (f.flatten (es ++ es')).outcome w = .ok items ↔
      ∃ a b, (f.flatten es).outcome w = .ok a ∧ (f.flatten es').outcome w = .ok b ∧ items = a ++ b := by
  have hmap : ∀ {x : Except Failure (List (List Value))} {items : List Value},
      x.map List.flatten = .ok items ↔ ∃ itemss, x = .ok itemss ∧ items = itemss.flatten := by
    intro x items
    cases x <;> simp [eq_comm]
  simp only [flatten_outcome, List.mapM_append, hmap, bind_eq_ok]
  constructor
  · rintro ⟨_, ⟨front, hf, back, hb, h⟩, rfl⟩
    cases h
    exact ⟨_, _, ⟨front, hf, rfl⟩, ⟨back, hb, rfl⟩, List.flatten_append⟩
  · rintro ⟨_, _, ⟨front, hf, rfl⟩, ⟨back, hb, rfl⟩, rfl⟩
    exact ⟨_, ⟨front, hf, back, hb, rfl⟩, List.flatten_append.symm⟩

/-- The names of elements do not matter for their items. -/
theorem flatten_anonymous {es es' : List Element}
    (h : es.map Element.anonymous = es'.map Element.anonymous) :
    (f.flatten es).outcome w = (f.flatten es').outcome w := by
  have hmapM : es.mapM (fun e => (f.itemsOf e).outcome w) = es'.mapM fun e => (f.itemsOf e).outcome w := by
    induction es generalizing es' with
    | nil =>
      cases es' with
      | nil => rfl
      | cons _ _ => cases h
    | cons e rest ih =>
      cases es' with
      | nil => cases h
      | cons e' rest' =>
        rw [List.map_cons, List.map_cons, List.cons.injEq] at h
        rw [List.mapM_cons, List.mapM_cons, itemsOf_anonymous h.1, ih h.2]
  rw [flatten_outcome, flatten_outcome, hmapM]

/-- A configuration has the items of the elements that can be derived for it. -/
theorem config_eq_ok (hw : w.ModulesApart) {config : Value} {items : List Value} :
    (f.config config).outcome w = .ok items ↔
      ∃ es, Resolves f.resolver w config (startContext f.resolver "<input>" none) es ∧
        (f.flatten es).outcome w = .ok items := by
  rw [Flattener.config, (resolve_settled hw config _ _).outcome_bind fun _ _ => flatten_settled _, bind_eq_ok]
  refine exists_congr fun es => and_congr_left fun _ => ?_
  rw [resolve_eq_ok hw]
  exact ⟨fun ⟨path, hpath, h⟩ => Except.ok.inj hpath ▸ h, fun h => ⟨none, rfl, h⟩⟩

/-- A configuration file has the items of the elements of what it contains. -/
theorem configFile_eq_ok (hw : w.ModulesApart) {file : Path} {items : List Value} :
    (f.configFile file).outcome w = .ok items ↔ ∃ m path es,
      ConfigFile.load w (f.resolver.base.join file) = .ok m ∧
      w.resolve (f.resolver.base.join file) = .ok path ∧
      Resolves f.resolver w (.mapping m)
        (startContext f.resolver (f.resolver.base.join file).name (some path)) es ∧
      (f.flatten es).outcome w = .ok items := by
  rw [configFile, (resolveFile_settled hw file).outcome_bind fun _ _ => flatten_settled _, bind_eq_ok]
  simp only [resolveFile_eq_ok hw]
  exact ⟨fun ⟨es, ⟨m, path, hm, hpath, h⟩, hitems⟩ => ⟨m, path, es, hm, hpath, h, hitems⟩,
    fun ⟨m, path, es, hm, hpath, h, hitems⟩ => ⟨es, ⟨m, path, hm, hpath, h⟩, hitems⟩⟩

/-! ## Sessions -/

theorem config_settled (hw : w.ModulesApart) (config : Value) : Settled f.resolver w (f.config config) := by
  unfold Flattener.config
  exact (Resolution.resolve_settled hw _ _ _).bind fun _ _ => flatten_settled _

theorem configFile_settled (hw : w.ModulesApart) (file : Path) :
    Settled f.resolver w (f.configFile file) := by
  unfold configFile
  exact (Resolution.resolveFile_settled hw _).bind fun _ _ => flatten_settled _

/-- The sessions that using a flattener leads to. -/
inductive Reached (f : Flattener) (w : World) : Session → Prop where
  | start : Reached f w (Session.start w)
  | config {s : Session} (config : Value) : Reached f w s → Reached f w ((f.config config).runFrom s).2
  | configFile {s : Session} (file : Path) :
      Reached f w s → Reached f w ((f.configFile file).runFrom s).2

theorem Reached.coherent (hw : w.ModulesApart) {s : Session} (h : Reached f w s) :
    s.Coherent f.resolver w := by
  induction h with
  | start => exact Session.coherent_start _ w
  | config config _ ih => exact (config_settled hw config _ ih).1
  | configFile file _ ih => exact (configFile_settled hw file _ ih).1

end Flattener

end Cascade
