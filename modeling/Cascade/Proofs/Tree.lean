import Cascade.Proofs.Contents
import Cascade.Resolution

/-! # Finite trees

A value is a finite tree when the way from values to their parts, also through
references, comes to an end. Of a configuration only its overrides have to be
nested like that. On the way into them no shared value is met twice, so it gets
no longer than the configuration and all shared values are deep together. -/
namespace Cascade

def Value.parts : Value → List Value
  | .list items | .tuple items => items
  | .mapping entries => entries.map Prod.snd
  | .object _ members => members.map Prod.snd
  | _ => []

/-- What is accessible along a relation is not beyond itself. -/
theorem not_transGen_self {α : Type} {r : α → α → Prop} {a : α} (h : Acc r a) :
    ¬ Relation.TransGen r a a := by
  have hacc : Acc (Relation.TransGen r) a := h.transGen
  induction hacc with
  | intro a _ ih => exact fun ha => ih a ha (h.inv_of_transGen ha) ha

namespace Shared

variable {store : Shared}

/-- A part of a value or of what a reference stands for. -/
def IsPart (store : Shared) (part whole : Value) : Prop := part ∈ (store.view whole).parts

def IsTree (store : Shared) (v : Value) : Prop := Acc store.IsPart v

end Shared

theorem Probe.found_parts {p : Probe} {v part : Value} (h : part ∈ v.parts) : p.found part ⊆ p.found v := by
  cases v with
  | list items => exact found_of_mem_items h
  | tuple items => exact found_of_mem_items h
  | mapping entries =>
    obtain ⟨e, he, rfl⟩ := List.mem_map.mp h
    exact (found_of_mem_entries he).2
  | object kind members =>
    obtain ⟨m, hm, rfl⟩ := List.mem_map.mp h
    exact found_of_mem_members hm
  | _ => cases h

theorem Probe.found_part {p : Probe} {names : List String} {store : Shared}
    (hs : p.foundInMembers store.entries ⊆ names) {v part : Value} (h : store.IsPart part v)
    (hv : p.found v ⊆ names) : p.found part ⊆ names :=
  List.Subset.trans (found_parts h) (found_view hs hv)

namespace Resolution

/-! ## Depth -/

theorem depth_le_of_mem_items {items : List Value} {v : Value} (h : v ∈ items) :
    depth v ≤ depthOfItems items := by
  induction items with
  | nil => cases h
  | cons first rest ih =>
    rcases List.mem_cons.mp h with rfl | h
    · exact Nat.le_max_left _ _
    · exact Nat.le_trans (ih h) (Nat.le_max_right _ _)

theorem depth_le_of_mem_entries {entries : Entries} {v : Value} (h : v ∈ entries.map Prod.snd) :
    depth v ≤ depthOfEntries entries := by
  induction entries with
  | nil => cases h
  | cons first rest ih =>
    rcases List.mem_cons.mp h with rfl | h
    · exact Nat.le_max_left _ _
    · exact Nat.le_trans (ih h) (Nat.le_max_right _ _)

theorem depth_le_of_mem_members {members : List (String × Value)} {v : Value}
    (h : v ∈ members.map Prod.snd) : depth v ≤ depthOfMembers members := by
  induction members with
  | nil => cases h
  | cons first rest ih =>
    rcases List.mem_cons.mp h with rfl | h
    · exact Nat.le_max_left _ _
    · exact Nat.le_trans (ih h) (Nat.le_max_right _ _)

theorem depth_lt_of_mem_parts {v part : Value} (h : part ∈ v.parts) : depth part < depth v := by
  cases v with
  | list items => exact Nat.lt_succ_of_le (depth_le_of_mem_items h)
  | tuple items => exact Nat.lt_succ_of_le (depth_le_of_mem_items h)
  | mapping entries => exact Nat.lt_succ_of_le (depth_le_of_mem_entries h)
  | object kind members => exact Nat.lt_succ_of_le (depth_le_of_mem_members h)
  | _ => cases h

end Resolution

/-- Induction from the parts of a value to the value. -/
@[elab_as_elim]
theorem Value.partsInduction {P : Value → Prop} (parts : ∀ v, (∀ part ∈ v.parts, P part) → P v)
    (v : Value) : P v := by
  induction hd : Resolution.depth v using Nat.strongRecOn generalizing v with
  | ind n ih => exact parts v fun part hp => ih _ (hd ▸ Resolution.depth_lt_of_mem_parts hp) part rfl

namespace Resolution

/-! ## Ways through a tree -/

variable {store : Shared}

/-- How deep the shared values are together that have not been seen. -/
def depthUnseen (seen : List String) : List (String × Value) → Nat
  | [] => 0
  | e :: rest => (if e.1 ∈ seen then 0 else depth e.2) + depthUnseen seen rest

theorem depthUnseen_nil (entries : List (String × Value)) :
    depthUnseen [] entries = total (entries.map fun e => depth e.2) := by
  induction entries with
  | nil => rfl
  | cons e rest ih => simp [depthUnseen, total, ih]

theorem depthUnseen_cons_le (name : String) (seen : List String) (entries : List (String × Value)) :
    depthUnseen (name :: seen) entries ≤ depthUnseen seen entries := by
  induction entries with
  | nil => exact Nat.le_refl _
  | cons e rest ih =>
    by_cases hs : e.1 ∈ seen
    · simpa [depthUnseen, hs] using ih
    · simp only [depthUnseen, hs, if_false]
      split <;> omega

/-- Seeing a shared value takes its depth away. -/
theorem depthUnseen_of_mem {name : String} {seen : List String} {content : Value}
    {entries : List (String × Value)} (h : (name, content) ∈ entries) (hn : name ∉ seen) :
    depth content + depthUnseen (name :: seen) entries ≤ depthUnseen seen entries := by
  induction entries with
  | nil => cases h
  | cons e rest ih =>
    rcases List.mem_cons.mp h with rfl | h
    · have := depthUnseen_cons_le name seen rest
      simp only [depthUnseen, hn, List.mem_cons, true_or, if_true, if_false]
      omega
    · have ih := ih h
      by_cases hs : e.1 ∈ seen
      · simpa [depthUnseen, hs] using ih
      · simp only [depthUnseen, hs, if_false]
        split <;> omega

/-- How deep a value can still lead when some shared values do not occur in it. -/
def reach (store : Shared) (seen : List String) (v : Value) : Nat :=
  depth v + depthUnseen seen store.entries

/-- The name that a value refers to. -/
def reference : Value → List String
  | .shared name => [name]
  | _ => []

/-- A step to a part leaves less to go, when the reference that it takes is new. -/
theorem reach_part {seen : List String} {v part : Value} (hp : store.IsPart part v)
    (hn : ∀ name ∈ reference v, name ∉ seen) :
    reach store (reference v ++ seen) part < reach store seen v := by
  cases v with
  | shared name =>
    have hn : name ∉ seen := hn name (by simp [reference])
    cases hl : store.entries.lookup name with
    | none =>
      rw [Shared.IsPart, Shared.view, hl] at hp
      cases hp
    | some content =>
      rw [Shared.IsPart, Shared.view, hl] at hp
      have hd := depth_lt_of_mem_parts hp
      have ht := depthUnseen_of_mem (mem_of_lookup hl) hn
      simp only [Option.getD_some] at hd
      simp only [reach, reference, List.cons_append, List.nil_append]
      omega
  | _ => exact Nat.add_lt_add_right (depth_lt_of_mem_parts hp) _

/-! ## Overrides in overrides -/

/-- The list of a configuration's overrides, as a value and as items. -/
def Lists (store : Shared) (config v : Value) (items : List Value) : Prop :=
  ∃ m, store.view config = .mapping m ∧ Entries.field? m "overrides" = some v ∧
    store.view v = .list items

def OverrideOf (store : Shared) (override config : Value) : Prop :=
  ∃ v items, Lists store config v items ∧ override ∈ items

/-- Overrides in overrides come to an end. -/
def Nests (store : Shared) (config : Value) : Prop := Acc (OverrideOf store) config

theorem Lists.parts {config v : Value} {items : List Value} (h : Lists store config v items) :
    store.IsPart v config ∧ ∀ override ∈ items, store.IsPart override v := by
  obtain ⟨m, hm, hv, hl⟩ := h
  obtain ⟨e, he, rfl⟩ := Option.map_eq_some_iff.mp hv
  refine ⟨?_, fun override ho => ?_⟩
  · rw [Shared.IsPart, hm]
    exact List.mem_map_of_mem (List.mem_of_find?_eq_some he)
  · rw [Shared.IsPart, hl]
    exact ho

theorem Lists.view_eq {config v : Value} {items : List Value} (h : Lists store config v items) :
    store.view v = .list items := by
  obtain ⟨m, -, -, hl⟩ := h
  exact hl

theorem nests_of_isTree {config : Value} (h : store.IsTree config) : Nests store config := by
  refine Subrelation.accessible (fun {override config} ho => ?_) h.transGen
  obtain ⟨v, items, hl, hmem⟩ := ho
  exact (Relation.TransGen.single (hl.parts.2 _ hmem)).tail hl.parts.1

theorem nests_of_not_mapping {config : Value} (h : ∀ m, store.view config ≠ .mapping m) :
    Nests store config := by
  refine .intro config fun override ho => ?_
  obtain ⟨v, items, ⟨m, hm, -⟩, -⟩ := ho
  exact absurd hm (h m)

/-- A configuration and the overrides at any depth of it. -/
def Within (store : Shared) (inner config : Value) : Prop :=
  inner = config ∨ Relation.TransGen (OverrideOf store) inner config

theorem Within.deeper {inner override config : Value} (h : Within store inner override)
    (ho : OverrideOf store override config) : Relation.TransGen (OverrideOf store) inner config := by
  rcases h with rfl | h
  · exact .single ho
  · exact h.tail ho

/-- A configuration that is nested finitely, and whose way into overrides does
not take the references seen so far. -/
structure Inside (store : Shared) (seen : List String) (config : Value) : Prop where
  nests : Nests store config
  unseen : ∀ inner, Within store inner config → ∀ v items, Lists store inner v items → items ≠ [] →
    ∀ name ∈ seen, name ∉ reference inner ∧ name ∉ reference v

theorem eq_of_mem_reference {v : Value} {name : String} (h : name ∈ reference v) : v = .shared name := by
  cases v with
  | shared other => rw [List.mem_singleton.mp h]
  | _ => cases h

/-- Values with one reference are one value. -/
theorem eq_of_mem_references {v v' : Value} {name : String} (h : name ∈ reference v) (h' : name ∈ reference v') :
    v = v' :=
  (eq_of_mem_reference h).trans (eq_of_mem_reference h').symm

/-- No list of overrides is a configuration that has overrides. -/
theorem Lists.ne {config config' v v' : Value} {items items' : List Value} (h : Lists store config v items)
    (h' : Lists store config' v' items') : v ≠ config' := by
  rintro rfl
  obtain ⟨m, hm, -, -⟩ := h'
  rw [h.view_eq] at hm
  cases hm

section
variable {config override inner v v' : Value} {items items' : List Value} (h : Nests store config)
  (hl : Lists store config v items) (hmem : override ∈ items) (hin : Within store inner override)
include h hl hmem hin

theorem Nests.ne_of_within : inner ≠ config := by
  rintro rfl
  exact not_transGen_self h (hin.deeper ⟨v, items, hl, hmem⟩)

/-- The overrides of a configuration are not met again below one of them. -/
theorem Nests.lists_ne_of_within (hl' : Lists store inner v' items') : v' ≠ v := by
  rintro rfl
  obtain ⟨m, hm, hfield, -⟩ := hl'
  have hback : OverrideOf store override inner := ⟨v', items, ⟨m, hm, hfield, hl.view_eq⟩, hmem⟩
  refine not_transGen_self (h.inv ⟨v', items, hl, hmem⟩) ?_
  rcases hin with rfl | hin
  · exact .single hback
  · exact (Relation.TransGen.single hback).trans hin

end

/-- A step into an override leaves less to go. -/
theorem Inside.override {seen : List String} {config override : Value} (h : Inside store seen config)
    (ho : OverrideOf store override config) :
    ∃ seen', Inside store seen' override ∧ reach store seen' override < reach store seen config := by
  obtain ⟨v, items, hl, hmem⟩ := ho
  have hne : items ≠ [] := List.ne_nil_of_mem hmem
  have hconfig : ∀ name ∈ reference config, name ∉ seen := fun name hr hs =>
    (h.unseen config (.inl rfl) v items hl hne name hs).1 hr
  have hv : ∀ name ∈ reference v, name ∉ reference config ++ seen := by
    intro name hr hs
    rcases List.mem_append.mp hs with hs | hs
    · exact hl.ne hl (eq_of_mem_references hr hs)
    · exact (h.unseen config (.inl rfl) v items hl hne name hs).2 hr
  refine ⟨reference v ++ (reference config ++ seen), ⟨h.nests.inv ⟨v, items, hl, hmem⟩, ?_⟩,
    Nat.lt_trans (reach_part (hl.parts.2 _ hmem) hv) (reach_part hl.parts.1 hconfig)⟩
  -- the references that are new since the step belong to the configuration and its list
  intro inner hin v' items' hl' hne' name hname
  rcases List.mem_append.mp hname with hr | hname
  · exact ⟨fun hi => hl.ne hl' (eq_of_mem_references hr hi),
      fun hi => h.nests.lists_ne_of_within hl hmem hin hl' (eq_of_mem_references hi hr)⟩
  rcases List.mem_append.mp hname with hr | hname
  · exact ⟨fun hi => h.nests.ne_of_within hl hmem hin (eq_of_mem_references hi hr),
      fun hi => hl'.ne hl (eq_of_mem_references hi hr)⟩
  · exact h.unseen inner (.inr (hin.deeper ⟨v, items, hl, hmem⟩)) v' items' hl' hne' name hname

theorem Inside.start {config : Value} (h : Nests store config) :
    Inside store [] config ∧ reach store [] config < depthBound store config := by
  refine ⟨⟨h, by simp⟩, ?_⟩
  rw [reach, depthUnseen_nil, depthBound]
  exact Nat.lt_succ_self _

/-! ## Values without references -/

theorem hasSharedItems_eq (vs : List Value) : Value.hasSharedItems vs = vs.any Value.hasShared := by
  induction vs with
  | nil => rfl
  | cons first rest ih => rw [Value.hasSharedItems, List.any_cons, ih]

theorem hasSharedEntries_eq (m : Entries) :
    Value.hasSharedEntries m = (m.map Prod.snd).any Value.hasShared := by
  induction m with
  | nil => rfl
  | cons first rest ih => rw [Value.hasSharedEntries, List.map_cons, List.any_cons, ih]

theorem hasSharedMembers_eq (m : List (String × Value)) :
    Value.hasSharedMembers m = (m.map Prod.snd).any Value.hasShared := by
  induction m with
  | nil => rfl
  | cons first rest ih => rw [Value.hasSharedMembers, List.map_cons, List.any_cons, ih]

theorem hasShared_of_mem_parts {v part : Value} (hv : v.hasShared = false) (h : part ∈ v.parts) :
    part.hasShared = false := by
  have hany : v.parts.any Value.hasShared = v.hasShared := by
    cases v with
    | list vs | tuple vs => exact (hasSharedItems_eq vs).symm
    | mapping m => exact (hasSharedEntries_eq m).symm
    | object kind m => exact (hasSharedMembers_eq m).symm
    | shared name => cases hv
    | _ => rfl
  rw [← hany, List.any_eq_false] at hv
  simpa using hv part h

/-- A value without references is a finite tree. -/
theorem isTree_of_not_hasShared {v : Value} (hv : v.hasShared = false) : store.IsTree v := by
  induction v using Value.partsInduction with
  | parts v ih =>
    refine .intro v fun part hp => ?_
    have hview : store.view v = v := by
      cases v with
      | shared name => cases hv
      | _ => rfl
    rw [Shared.IsPart, hview] at hp
    exact ih part hp (hasShared_of_mem_parts hv hp)

end Resolution

end Cascade
