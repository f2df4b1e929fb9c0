import Mathlib.Data.List.Forall2
import Cascade.Proofs.Agreement
import Cascade.Proofs.Conversion.Parts

/-! # Records in each other's place

A dependency, a definition, patterns and criteria are records: they are read by their
members only, so a mapping and an object may take each other's place when they have the
same members. A node is restated when this is done at any places in it, also in the
environments that the definitions of its plugins have inside, to any depth; nodes may lead
back to themselves, so this is the greatest relation that takes one step at a time. The
parts of a restated node are those of the node, and its own item has nothing restated in it
but definitions. Both are read from one store, where a shared record that takes the place of
another is a further one. -/
namespace Cascade

/-! ## Lists item by item -/

section
variable {α β γ : Type} {Q : α → β → Prop} {l : List α} {l' : List β}

theorem filterMap_eq_of_forall₂ {f : α → Option γ} {g : β → Option γ} (h : List.Forall₂ Q l l')
    (hfg : ∀ a b, Q a b → f a = g b) : l.filterMap f = l'.filterMap g := by
  induction h with
  | nil => rfl
  | cons hq _ ih => rw [List.filterMap_cons, List.filterMap_cons, hfg _ _ hq, ih]

end

/-! ## Entries key by key -/

section
variable {α : Type} {P Q : α → Value → Value → Prop} {m m' n n' : List (α × Value)}

/-- The same keys in the same order, with related values. -/
def Keywise (Q : α → Value → Value → Prop) (m m' : List (α × Value)) : Prop :=
  List.Forall₂ (fun e e' => e.1 = e'.1 ∧ Q e.1 e.2 e'.2) m m'

/-- Values that are equal, unless they are under a certain key. -/
def Only (inner : α) (Inner : Value → Value → Prop) (key : α) (v v' : Value) : Prop := v = v' ∨ key = inner ∧ Inner v v'

theorem Only.refl {inner : α} {Inner : Value → Value → Prop} (key : α) (v : Value) : Only inner Inner key v v := .inl rfl

theorem Only.eq {inner key : α} {Inner : Value → Value → Prop} {v v' : Value} (h : Only inner Inner key v v')
    (hne : key ≠ inner) : v = v' :=
  h.resolve_right fun ⟨heq, _⟩ => hne heq

theorem Only.inside {inner : α} {Inner : Value → Value → Prop} {v v' : Value} (h : Only inner Inner inner v v')
    (hrefl : ∀ v, Inner v v) : Inner v v' := by
  rcases h with rfl | ⟨-, h⟩
  · exact hrefl _
  · exact h

theorem Only.mono {inner key : α} {Inner Inner' : Value → Value → Prop} {v v' : Value} (h : Only inner Inner key v v')
    (hi : ∀ v v', Inner v v' → Inner' v v') : Only inner Inner' key v v' :=
  h.imp_right fun ⟨heq, h⟩ => ⟨heq, hi _ _ h⟩

namespace Keywise

theorem refl (h : ∀ key v, Q key v v) (m : List (α × Value)) : Keywise Q m m :=
  List.forall₂_same.mpr fun e _ => ⟨rfl, h e.1 e.2⟩

theorem mono (h : Keywise P m m') (hq : ∀ key v v', P key v v' → Q key v v') : Keywise Q m m' :=
  List.Forall₂.imp (fun _ _ he => ⟨he.1, hq _ _ _ he.2⟩) h

theorem reverse (h : Keywise Q m m') : Keywise Q m.reverse m'.reverse := List.forall₂_reverse_iff.mpr h

theorem append (h : Keywise Q m m') (hn : Keywise Q n n') : Keywise Q (m ++ n) (m' ++ n') := List.rel_append h hn

theorem isEmpty (h : Keywise Q m m') : m.isEmpty = m'.isEmpty := by
  cases h <;> rfl

/-- Other keys may be made of the keys. -/
theorem map {β : Type} {R : Value → Value → Prop} (h : Keywise (fun _ => R) m m') (f : α → β) :
    Keywise (fun _ => R) (m.map fun e => (f e.1, e.2)) (m'.map fun e => (f e.1, e.2)) := by
  induction h with
  | nil => exact .nil
  | cons he _ ih => exact .cons ⟨congrArg f he.1, he.2⟩ ih

/-- What is made of the entries alike is alike. -/
theorem flatMap {β : Type} {f f' : α × Value → List (β × Value)} {R : β → Value → Value → Prop} (h : Keywise Q m m')
    (hf : ∀ key v v', Q key v v' → Keywise R (f (key, v)) (f' (key, v'))) : Keywise R (m.flatMap f) (m'.flatMap f') := by
  induction h with
  | nil => exact .nil
  | @cons e e' _ _ he _ ih =>
    obtain ⟨key, v⟩ := e
    obtain ⟨key', v'⟩ := e'
    obtain ⟨rfl, hq⟩ := he
    exact append (hf _ _ _ hq) ih

theorem flatMap_eq {β : Type} {f f' : α × Value → List β} (h : Keywise Q m m')
    (hf : ∀ key v v', Q key v v' → f (key, v) = f' (key, v')) : m.flatMap f = m'.flatMap f' := by
  induction h with
  | nil => rfl
  | @cons e e' _ _ he _ ih =>
    obtain ⟨key, v⟩ := e
    obtain ⟨key', v'⟩ := e'
    obtain ⟨rfl, hq⟩ := he
    rw [List.flatMap_cons, List.flatMap_cons, hf _ _ _ hq, ih]

theorem lookup [BEq α] [LawfulBEq α] (h : Keywise Q m m') (key : α) : Option.Rel (Q key) (m.lookup key) (m'.lookup key) := by
  induction h with
  | nil => exact .none
  | @cons e e' _ _ he _ ih =>
    obtain ⟨k, v⟩ := e
    obtain ⟨k', v'⟩ := e'
    obtain ⟨rfl, hq⟩ := he
    rw [List.lookup_cons, List.lookup_cons]
    cases heq : key == k with
    | true =>
      rw [eq_of_beq heq]
      exact .some hq
    | false => exact ih

end Keywise

end

namespace Keywise

variable {Q : Value → Value → Value → Prop} {m m' : Entries}

theorem field? (h : Keywise Q m m') (name : String) :
    Option.Rel (Q (.str name)) (Entries.field? m name) (Entries.field? m' name) := by
  induction h with
  | nil => exact .none
  | @cons e e' _ _ he _ ih =>
    obtain ⟨key, v⟩ := e
    obtain ⟨key', v'⟩ := e'
    obtain ⟨rfl, hq⟩ := he
    by_cases hkey : key = .str name
    · subst hkey
      simpa [Entries.field?, Entries.get?] using Option.Rel.some hq
    · simpa [Entries.field?, Entries.get?, hkey] using ih

theorem set {Q : Value → Value → Prop} (h : Keywise (fun _ => Q) m m') (key : Value) {v v' : Value} (hv : Q v v') :
    Keywise (fun _ => Q) (Entries.set m key v) (Entries.set m' key v') := by
  induction h with
  | nil => exact .cons ⟨rfl, hv⟩ .nil
  | @cons e e' _ _ he hrest ih =>
    rw [Entries.set, Entries.set, ← he.1]
    split
    · exact .cons ⟨rfl, hv⟩ hrest
    · exact .cons he ih

end Keywise

/-! ## Restated values -/

namespace Shared

variable {store : Shared} {v v' : Value}

/-- A mapping or an object. -/
def IsRecord (store : Shared) (v : Value) : Prop :=
  (∃ m, store.view v = .mapping m) ∨ ∃ kind members, store.view v = .object kind members

/-- The same value, or two records whose members are related name by name. What a record
does not have is null, so it is not told from a member that is null. -/
inductive Restated (store : Shared) (Members : String → Value → Value → Prop) : Value → Value → Prop
  | same (v : Value) : Restated store Members v v
  | record {v v' : Value} : store.IsRecord v → store.IsRecord v' →
      (∀ name, Members name (store.member v name) (store.member v' name)) → Restated store Members v v'

/-- The same value, or two mappings with the same keys and related values. -/
inductive Entrywise (store : Shared) (Q : Value → Value → Prop) : Value → Value → Prop
  | same (v : Value) : Entrywise store Q v v
  | entries {v v' : Value} {m m' : Entries} : store.view v = .mapping m → store.view v' = .mapping m' →
      Keywise (fun _ => Q) m m' → Entrywise store Q v v'

/-- The same value, or two sequences of one kind with related items. -/
inductive Itemwise (store : Shared) (Q : Value → Value → Prop) : Value → Value → Prop
  | same (v : Value) : Itemwise store Q v v
  | list {v v' : Value} {items items' : List Value} : store.view v = .list items → store.view v' = .list items' →
      List.Forall₂ Q items items' → Itemwise store Q v v'
  | tuple {v v' : Value} {items items' : List Value} : store.view v = .tuple items → store.view v' = .tuple items' →
      List.Forall₂ Q items items' → Itemwise store Q v v'

namespace Restated

variable {Members Members' : String → Value → Value → Prop}

theorem member (h : store.Restated Members v v') (hrefl : ∀ name v, Members name v v) (name : String) :
    Members name (store.member v name) (store.member v' name) := by
  cases h with
  | same => exact hrefl _ _
  | record _ _ hmembers => exact hmembers name

theorem mono (h : store.Restated Members v v') (hm : ∀ name v v', Members name v v' → Members' name v v') :
    store.Restated Members' v v' := by
  cases h with
  | same => exact .same _
  | record hv hv' hmembers => exact .record hv hv' fun name => hm _ _ _ (hmembers name)

/-- Nothing is null that is a record. -/
theorem eq_null_iff (h : store.Restated Members v v') : v = .null ↔ v' = .null := by
  have hrecord : ∀ {v}, store.IsRecord v → v ≠ .null := by
    rintro v (⟨m, hm⟩ | ⟨kind, members, hm⟩) rfl <;> cases hm
  cases h with
  | same => exact Iff.rfl
  | record hv hv' _ => exact iff_of_false (hrecord hv) (hrecord hv')

end Restated

/-- The mapping that has some members under their names. -/
def asMapping (members : List (String × Value)) : Value := .mapping (members.map fun m => (.str m.1, m.2))

/-- An object that has them as attributes. -/
def asObject (members : List (String × Value)) : Value := .object (.instanceOf "SimpleNamespace") members

theorem member_asMapping (members : List (String × Value)) (name : String) :
    store.member (asMapping members) name = (members.lookup name).getD .null := by
  have hfield : Entries.field? (members.map fun m => (.str m.1, m.2)) name = members.lookup name := by
    induction members with
    | nil => rfl
    | cons m rest ih =>
      rw [List.map_cons, List.lookup_cons, ← ih]
      by_cases hname : m.1 = name
      · simp [Entries.field?, Entries.get?, hname]
      · have hne : (name == m.1) = false := by simpa using Ne.symm hname
        simp [Entries.field?, Entries.get?, hname, hne]
  show (Entries.field? (members.map fun m => (.str m.1, m.2)) name).getD .null = _
  rw [hfield]

/-- A mapping and an object take each other's place when their members do. -/
theorem Restated.represented {Members : String → Value → Value → Prop} {members members' : List (String × Value)}
    (h : Keywise Members members members') (hrefl : ∀ name v, Members name v v) :
    store.Restated Members (asMapping members) (asObject members') := by
  refine .record (.inl ⟨_, rfl⟩) (.inr ⟨_, _, rfl⟩) fun name => ?_
  rw [member_asMapping]
  show Members name _ ((members'.lookup name).getD .null)
  have hlookup := h.lookup name
  generalize members.lookup name = o, members'.lookup name = o' at hlookup
  cases hlookup with
  | some hv => exact hv
  | none => exact hrefl name .null

/-- Records with the same members. -/
abbrev SameMembers (store : Shared) : Value → Value → Prop := store.Restated fun _ => Eq

theorem SameMembers.member (h : store.SameMembers v v') (name : String) : store.member v name = store.member v' name :=
  Restated.member h (fun _ _ => rfl) name

theorem entriesIn_of_view {m : Entries} (hv : store.view v = .mapping m) : store.entriesIn v = m := by
  have hentries : store.entriesIn v = store.entriesIn (.mapping m) := by
    simp only [entriesIn, entriesOrNone, entriesOf, truthy, hv]
    rfl
  rw [hentries, entriesIn_mapping]

theorem mappable_of_view {m : Entries} (hv : store.view v = .mapping m) : store.Mappable v := by
  rw [Mappable, entriesOrNone, entriesOf, hv]
  split <;> exact ⟨_, rfl⟩

namespace Entrywise

variable {Q Q' : Value → Value → Prop}

theorem mono (h : store.Entrywise Q v v') (hq : ∀ v v', Q v v' → Q' v v') : store.Entrywise Q' v v' := by
  cases h with
  | same => exact .same _
  | entries hv hv' hm => exact .entries hv hv' (hm.mono fun _ => hq)

theorem entriesIn (h : store.Entrywise Q v v') (hrefl : ∀ v, Q v v) :
    Keywise (fun _ => Q) (store.entriesIn v) (store.entriesIn v') := by
  cases h with
  | same => exact .refl (fun _ => hrefl) _
  | entries hv hv' hm => rwa [entriesIn_of_view hv, entriesIn_of_view hv']

theorem mappable (h : store.Entrywise Q v v') (hv : store.Mappable v) : store.Mappable v' := by
  cases h with
  | same => exact hv
  | entries _ hv' _ => exact mappable_of_view hv'

theorem truthy (h : store.Entrywise Q v v') : store.truthy v = store.truthy v' := by
  cases h with
  | same => rfl
  | entries hv hv' hm => rw [Shared.truthy, Shared.truthy, hv, hv', Value.truthy, Value.truthy, hm.isEmpty]

end Entrywise

namespace Itemwise

variable {Q : Value → Value → Prop}

theorem itemsIn (h : store.Itemwise Q v v') (hrefl : ∀ v, Q v v) :
    List.Forall₂ Q (store.itemsIn v) (store.itemsIn v') := by
  cases h with
  | same => exact List.forall₂_same.mpr fun v _ => hrefl v
  | list hv hv' hi | tuple hv hv' hi =>
    rw [Shared.itemsIn, Shared.itemsIn, itemsOf, itemsOf, hv, hv']
    exact hi

theorem iterable (h : store.Itemwise Q v v') (hv : store.Iterable v) : store.Iterable v' := by
  cases h with
  | same => exact hv
  | list _ hv' _ | tuple _ hv' _ => exact ⟨_, by rw [itemsOf, hv']⟩

theorem truthy (h : store.Itemwise Q v v') : store.truthy v = store.truthy v' := by
  cases h with
  | same => rfl
  | list hv hv' hi | tuple hv hv' hi =>
    rw [Shared.truthy, Shared.truthy, hv, hv', Value.truthy, Value.truthy]
    cases hi <;> rfl

end Itemwise

end Shared

namespace Conversion

variable {store : Shared} {R R' : Value → Value → Prop} {v v' : Value} {m m' : Entries}

/-- A definition of a plugin, whose environments are related. -/
abbrev SameDefinition (store : Shared) (R : Value → Value → Prop) : Value → Value → Prop :=
  store.Restated (Only "environments" (store.Entrywise R))

/-- A plugin as a dependency. -/
abbrev SamePlugin (store : Shared) (R : Value → Value → Prop) : Value → Value → Prop :=
  store.Restated (Only "definition" (SameDefinition store R))

/-- A parser as a dependency. -/
abbrev SameParser (store : Shared) : Value → Value → Prop := store.Restated (Only "definition" store.SameMembers)

/-- Criteria, which are a sequence of pairs of patterns. -/
abbrev SameCriteria (store : Shared) : Value → Value → Prop :=
  store.Restated (Only "patterns" (store.Itemwise store.SameMembers))

/-- The keys under which there are records. -/
def recordKeys : List String := ["parser", "ignorePattern", "criteria", "plugins"]

/-- The entries of nodes that differ in records only. -/
structure EntriesRestated (store : Shared) (R : Value → Value → Prop) (m m' : Entries) : Prop where
  others : ∀ key ∉ recordKeys, Entries.field? m key = Entries.field? m' key
  parser : Option.Rel (SameParser store) (Entries.field? m "parser") (Entries.field? m' "parser")
  ignorePattern : store.SameMembers (m.at "ignorePattern") (m'.at "ignorePattern")
  criteria : SameCriteria store (m.at "criteria") (m'.at "criteria")
  plugins : store.Entrywise (SamePlugin store R) (m.at "plugins") (m'.at "plugins")

theorem EntriesRestated.mono (h : EntriesRestated store R m m') (hr : ∀ v v', R v v' → R' v v') :
    EntriesRestated store R' m m' where
  others := h.others
  parser := h.parser
  ignorePattern := h.ignorePattern
  criteria := h.criteria
  plugins := h.plugins.mono fun _ _ hp => hp.mono fun _ _ _ hd =>
    hd.mono fun _ _ he => he.mono fun _ _ _ ho => ho.mono fun _ _ hf => hf.mono hr

theorem EntriesRestated.refl (m : Entries) : EntriesRestated store R m m where
  others _ _ := rfl
  parser := by cases Entries.field? m "parser" with
    | none => exact .none
    | some v => exact .some (.same v)
  ignorePattern := .same _
  criteria := .same _
  plugins := .same _

/-- A relation each step of which is taken within the relation. -/
def Restating (store : Shared) (R : Value → Value → Prop) : Prop :=
  ∀ node node', R node node' → node = node' ∨ ∃ m m', store.view node = .mapping m ∧ store.view node' = .mapping m' ∧
    EntriesRestated store R m m'

/-- A node with records in the place of others, to any depth. -/
def SameNode (store : Shared) (node node' : Value) : Prop := ∃ R, Restating store R ∧ R node node'

namespace SameNode

variable {node node' : Value}

theorem refl (node : Value) : SameNode store node node := ⟨Eq, fun _ _ h => .inl h, rfl⟩

theorem cases (h : SameNode store node node') : node = node' ∨ ∃ m m', store.view node = .mapping m ∧
    store.view node' = .mapping m' ∧ EntriesRestated store (SameNode store) m m' := by
  obtain ⟨R, hr, h⟩ := h
  refine (hr node node' h).imp_right fun ⟨m, m', hv, hv', hm⟩ => ⟨m, m', hv, hv', hm.mono fun _ _ h => ⟨R, hr, h⟩⟩

theorem entries (hv : store.view node = .mapping m) (hv' : store.view node' = .mapping m')
    (h : EntriesRestated store (SameNode store) m m') : SameNode store node node' := by
  refine ⟨fun a b => SameNode store a b ∨ a = node ∧ b = node', ?_, .inr ⟨rfl, rfl⟩⟩
  rintro a b (hab | ⟨rfl, rfl⟩)
  · exact hab.cases.imp_right fun ⟨m, m', ha, hb, hm⟩ => ⟨m, m', ha, hb, hm.mono fun _ _ => .inl⟩
  · exact .inr ⟨m, m', hv, hv', h.mono fun _ _ => .inl⟩

/-- The entries of a node that can be read. -/
theorem view (h : SameNode store node node') (hv : store.view node = .mapping m) :
    ∃ m', store.view node' = .mapping m' ∧ EntriesRestated store (SameNode store) m m' := by
  rcases h.cases with rfl | ⟨m₁, m', hv₁, hv', hm⟩
  · exact ⟨m, hv, .refl m⟩
  · rw [hv] at hv₁
    cases hv₁
    exact ⟨m', hv', hm⟩

end SameNode

end Conversion

end Cascade
