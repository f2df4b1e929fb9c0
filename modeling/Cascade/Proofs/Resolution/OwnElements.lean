import Cascade.Proofs.Conversion.Parts
import Cascade.Proofs.Resolution.Accepted
import Cascade.Proofs.Resolution.Journals

/-! # The elements of one configuration

A configuration by itself has one element, and in front of it those of the
processors that its plugins assign to file extensions. What these elements are
depends on the configuration, its context and the plugins alone, whatever has been
loaded before. -/
namespace Cascade

/-- An action that stays in its world, and what it gives there. -/
abbrev InWorld {α : Type} (w : World) (a : Action α) (Q : α → Prop) : Prop :=
  Yields (fun s => s.world = w) (fun _ => True) a Q

section
variable {α β : Type} {w : World} {a : Action α}

/-- An action that does not read the journal stays in its world. -/
theorem Agree.inWorld {same : Prop} {R : α → α → Prop} (h : Agrees (Session.Alike w) same a a R) :
    InWorld w a fun _ => True := by
  intro s hs
  obtain ⟨⟨hw, -⟩, -⟩ := h s s ⟨hs, s.journal, rfl⟩
  refine ⟨hw, ?_⟩
  split <;> trivial

namespace InWorld

theorem shared : InWorld w Action.shared fun store => store = w.shared :=
  fun _ hs => ⟨hs, congrArg World.shared hs⟩

theorem world : InWorld w Action.world fun x => x = w := fun _ hs => ⟨hs, hs⟩

theorem ofFault (x : Except Fault α) : InWorld w (Action.ofFault x) fun y => x = .ok y :=
  Yields.ofFault (fun _ h => h) fun _ _ => trivial

theorem ofProblem (x : Except Problem α) : InWorld w (Action.ofProblem x) fun y => x = .ok y :=
  Yields.ofProblem (fun _ h => h) fun _ _ => trivial

theorem optionMapM_ofFault (o : Option β) (f : β → Except Fault α) :
    InWorld w (o.mapM fun x => Action.ofFault (f x)) fun y => o.mapM f = .ok y := by
  cases o with
  | none => exact .pure rfl
  | some x =>
    refine (ofFault (f x)).bind fun y hy => .pure ?_
    rw [Option.mapM_some, hy]
    rfl

/-- What an action gives in a world it gives in a run from there. -/
theorem of_run {Q : α → Prop} {s t : Session} {x : α} (h : InWorld s.world a Q)
    (hrun : a.runFrom s = (.ok x, t)) : Q x := by
  have hx := (h s rfl).2
  rw [hrun] at hx
  exact hx

end InWorld

end

namespace Resolution

variable {r : Resolver} {w : World} {m : Entries} {ctx : Context}

/-! ## Plugins -/

/-- Plugins that are filed under their own identifiers, each of which has one place. -/
structure Filed (plugins : List (String × Dependency)) : Prop where
  own : ∀ p ∈ plugins, p.1 = p.2.id
  once : (plugins.map Prod.fst).Nodup

theorem mem_insertPlugin {plugins : List (String × Dependency)} {d : Dependency} {p : String × Dependency}
    (h : p ∈ insertPlugin plugins d) : p ∈ plugins ∨ p = (d.id, d) := by
  induction plugins with
  | nil => exact .inr (List.mem_singleton.mp h)
  | cons first rest ih =>
    unfold insertPlugin at h
    split at h
    · rename_i heq
      rcases List.mem_cons.mp h with rfl | h
      · exact .inr (by rw [← beq_iff_eq.mp heq])
      · exact .inl (List.mem_cons_of_mem _ h)
    · rcases List.mem_cons.mp h with rfl | h
      · exact .inl (by simp)
      · exact (ih h).imp_left (List.mem_cons_of_mem _)

theorem insertPlugin_names (plugins : List (String × Dependency)) (d : Dependency) :
    (insertPlugin plugins d).map Prod.fst =
      if d.id ∈ plugins.map Prod.fst then plugins.map Prod.fst else plugins.map Prod.fst ++ [d.id] := by
  induction plugins with
  | nil => rfl
  | cons first rest ih =>
    unfold insertPlugin
    by_cases heq : first.1 = d.id
    · simp [heq]
    · rw [if_neg (by simpa using heq), List.map_cons, ih]
      by_cases hmem : d.id ∈ rest.map Prod.fst
      · rw [if_pos hmem, if_pos (by simp [hmem])]
        rfl
      · rw [if_neg hmem, if_neg (by simpa [Ne.symm heq] using hmem)]
        rfl

theorem Filed.insertPlugin {plugins : List (String × Dependency)} (h : Filed plugins) (d : Dependency) :
    Filed (insertPlugin plugins d) := by
  refine ⟨fun p hp => ?_, ?_⟩
  · rcases mem_insertPlugin hp with hp | rfl
    · exact h.own p hp
    · rfl
  · rw [insertPlugin_names]
    split
    · exact h.once
    · rename_i hnew
      exact nodup_snoc h.once hnew

theorem insertPlugin_ne_nil (plugins : List (String × Dependency)) (d : Dependency) :
    insertPlugin plugins d ≠ [] := by
  cases plugins with
  | nil => simp [insertPlugin]
  | cons first rest =>
    unfold insertPlugin
    split <;> simp

theorem loadPlugin_inWorld (name : String) (ctx : Context) : InWorld w (loadPlugin r name ctx) fun _ => True :=
  (loadPlugin_alike name (.refl ctx : Renamed True ctx ctx)).inWorld

theorem loadParser_inWorld (r : Resolver) (parser : Value) (ctx : Context) :
    InWorld w (loadParser parser ctx) fun _ => True :=
  (loadParser_agrees (interchangeable_alike (r := r)) parser (.refl ctx : Renamed True ctx ctx)).inWorld

/-- The plugins of a list that is not empty. -/
theorem loadPlugins_filed (names : Value) (ctx : Context) (hn : w.shared.truthy names = true) :
    InWorld w (loadPlugins r names ctx) fun plugins => plugins ≠ [] ∧ Filed plugins := by
  unfold loadPlugins
  refine InWorld.shared.bind fun _ hstore => ?_
  subst hstore
  split
  · rename_i items hitems
    split
    · rename_i listed hlisted
      have hne : listed ≠ [] := by
        rintro rfl
        rw [Value.strings?_eq_some.mp hlisted] at hitems
        simp [Shared.truthy, hitems, Value.truthy] at hn
      obtain ⟨first, rest, rfl⟩ := List.exists_cons_of_ne_nil hne
      have added : ∀ name plugins, Filed plugins → InWorld w
          (do return insertPlugin plugins (← loadPlugin r name ctx)) fun plugins => plugins ≠ [] ∧ Filed plugins :=
        fun name plugins hp => (loadPlugin_inWorld name ctx).bind fun d _ =>
          .pure ⟨insertPlugin_ne_nil plugins d, hp.insertPlugin d⟩
      rw [List.foldlM_cons]
      refine (added first [] ⟨by simp, .nil⟩).bind fun plugins hp => ?_
      exact Yields.foldlM (fun name _ plugins hp => added name plugins hp.2) hp
    · exact .throw trivial
  · exact .throw trivial

/-! ## Processors -/

/-- The file extensions that a plugin has processors for, in order. -/
def extensionsOf (store : Shared) (plugin : Dependency) : List String :=
  let processors := store.member plugin.definition "processors"
  let names := if store.truthy processors then (store.itemsOf processors).toOption.getD [] else []
  names.filterMap fun name => name.str?.filter fun extension => Text.startsWith extension "."

/-- The patterns of the files of an extension, below a directory. -/
def extensionCriteria (directory : Path) (extension : String) : Criteria :=
  ⟨[⟨some ["*" ++ extension], none⟩], some directory.text⟩

/-- The element of a plugin's processor for a file extension. -/
def implicitElement (ctx : Context) (plugin extension : String) : Element where
  kind := .implicitProcessor
  name := ctx.name ++ "#processors[\"" ++ (plugin ++ "/" ++ extension) ++ "\"]"
  node := {
    data := [(.str "processor", .str (plugin ++ "/" ++ extension))]
    criteria := some (extensionCriteria ctx.directory extension) }
  file := ctx.file

def implicitElements (store : Shared) (ctx : Context) (plugins : List (String × Dependency)) : List Element :=
  plugins.flatMap fun p => (extensionsOf store p.2).map (implicitElement ctx p.1)

theorem processorElement_inWorld (ctx : Context) (plugin extension : String) :
    InWorld w (processorElement ctx plugin extension) (· = implicitElement ctx plugin extension) := by
  unfold processorElement
  refine (InWorld.ofProblem _).bind fun criteria hc => .pure ?_
  obtain ⟨includes, excludes, hi, he, -, rfl⟩ := Criteria.make_eq_ok.mp hc
  cases hi
  cases he
  rfl

theorem extensionElements_inWorld (ctx : Context) (plugin : String) (name : Value) :
    InWorld w (extensionElements ctx plugin name) (· = ((name.str?.filter
      fun extension => Text.startsWith extension ".").map (implicitElement ctx plugin)).toList) := by
  cases name with
  | str extension =>
    unfold extensionElements
    by_cases hdot : Text.startsWith extension "." = true
    · simp only [hdot, if_true]
      refine (processorElement_inWorld ctx plugin extension).bind fun e he => .pure ?_
      simp [he, Value.str?, Option.filter, hdot]
    · simp only [hdot]
      exact .pure (by simp [Value.str?, Option.filter, hdot])
  | _ => exact .throw trivial

/-- The elements of the processors of plugins, by plugin and then by extension. -/
theorem processorElements_inWorld (ctx : Context) (plugins : List (String × Dependency)) :
    InWorld w (processorElements ctx plugins) (· = implicitElements w.shared ctx plugins) := by
  unfold processorElements implicitElements
  refine InWorld.shared.bind fun _ hstore => ?_
  subst hstore
  refine (Yields.mapM_eq (g := fun p => (extensionsOf w.shared p.2).map (implicitElement ctx p.1))
    fun p _ => ?_).bind fun ess hess => .pure (by rw [hess, ← List.flatMap_def])
  have perName : ∀ names : List Value, InWorld w
      (do return (← names.mapM (extensionElements ctx p.1)).flatten : Action (List Element))
      (· = (names.filterMap fun name => name.str?.filter fun extension =>
        Text.startsWith extension ".").map (implicitElement ctx p.1)) := by
    intro names
    refine (Yields.mapM_eq fun name _ => extensionElements_inWorld ctx p.1 name).bind fun ess hess => .pure ?_
    rw [hess, List.map_filterMap, ← List.flatMap_def, List.filterMap_eq_flatMap_toList]
  dsimp only [extensionsOf]
  split
  · refine (InWorld.ofFault _).bind fun names hnames => ?_
    rw [hnames]
    exact perName names
  · exact (Yields.pure (Q := (· = [])) rfl).bind fun names hnames => by
      subst hnames
      exact perName []

/-! ## All of them -/

/-- The elements that a configuration has by itself. -/
structure Owns (w : World) (m : Entries) (ctx : Context) (processors : List Element) (own : Element) : Prop where
  kind : own.kind = .config
  name : own.name = ctx.name
  file : own.file = ctx.file
  data : own.node.data = nodeData m
  criteria : own.node.criteria = ctx.criteria
  ignored : ignorePattern? w.shared m ctx = .ok own.node.ignorePattern
  plugins : ∀ plugins ∈ own.node.plugins, plugins ≠ [] ∧ Filed plugins
  processors : processors = implicitElements w.shared ctx (own.node.plugins.getD [])

theorem ownElements_owns (r : Resolver) (w : World) (m : Entries) (ctx : Context) :
    InWorld w (ownElements r w.shared m ctx) fun es => ∃ processors own,
      es = processors ++ [own] ∧ Owns w m ctx processors own := by
  unfold ownElements
  refine (Yields.optionMapM (R := fun _ => True) fun v _ =>
    loadParser_inWorld r v ctx).bind fun parser _ => ?_
  refine (Yields.optionMapM (R := fun plugins => plugins ≠ [] ∧ Filed plugins) fun v hv => ?_).bind
    fun plugins hplugins => ?_
  · exact loadPlugins_filed v ctx (Option.mem_filter_iff.mp hv).2
  refine (processorElements_inWorld ctx _).bind fun processors hprocessors => ?_
  refine (InWorld.ofProblem _).bind fun pattern hpattern => .pure ?_
  exact ⟨processors, _, rfl, rfl, rfl, rfl, rfl, rfl, hpattern, hplugins, hprocessors⟩

end Resolution

end Cascade
