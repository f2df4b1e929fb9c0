import Cascade.Proofs.Conversion.OwnItem
import Cascade.Proofs.Resolution.Extends
import Cascade.Proofs.Resolution.Success
import Cascade.Proofs.Tree

/-! # Deleting overrides

An override is rejected for a file when its patterns do not take the file or
leave it out. Deleting rejected overrides from a configuration leaves everything
else of it as it is: its other entries, and its other overrides in their order. -/
namespace Cascade

/-- A list after deleting some of its members and relating the others. -/
inductive Pruned {α β : Type} (Lost : α → Prop) (Kept : α → β → Prop) : List α → List β → Prop where
  | nil : Pruned Lost Kept [] []
  | drop {x : α} {xs : List α} {ys : List β} : Lost x → Pruned Lost Kept xs ys →
      Pruned Lost Kept (x :: xs) ys
  | keep {x : α} {y : β} {xs : List α} {ys : List β} : Kept x y → Pruned Lost Kept xs ys →
      Pruned Lost Kept (x :: xs) (y :: ys)

namespace Pruned

variable {α β : Type} {Lost : α → Prop} {Kept : α → β → Prop} {xs xs' : List α} {ys ys' : List β}

theorem append (h : Pruned Lost Kept xs ys) (h' : Pruned Lost Kept xs' ys') :
    Pruned Lost Kept (xs ++ xs') (ys ++ ys') := by
  induction h with
  | nil => exact h'
  | drop hx _ ih => exact .drop hx ih
  | keep hxy _ ih => exact .keep hxy ih

theorem of_lost (h : ∀ x ∈ xs, Lost x) : Pruned Lost Kept xs [] := by
  induction xs with
  | nil => exact .nil
  | cons x rest ih => exact .drop (h x (by simp)) (ih fun x hx => h x (List.mem_cons_of_mem _ hx))

theorem mem (h : Pruned Lost Kept xs ys) {y : β} (hy : y ∈ ys) : ∃ x ∈ xs, Kept x y := by
  induction h with
  | nil => cases hy
  | drop _ _ ih =>
    obtain ⟨x, hx, hk⟩ := ih hy
    exact ⟨x, List.mem_cons_of_mem _ hx, hk⟩
  | keep hxy _ ih =>
    rcases List.mem_cons.mp hy with rfl | hy
    · exact ⟨_, by simp, hxy⟩
    · obtain ⟨x, hx, hk⟩ := ih hy
      exact ⟨x, List.mem_cons_of_mem _ hx, hk⟩

theorem refl {Kept : α → α → Prop} (hk : ∀ x, Kept x x) (xs : List α) : Pruned Lost Kept xs xs := by
  induction xs with
  | nil => exact .nil
  | cons x rest ih => exact .keep (hk x) ih

theorem filter {Kept : α → α → Prop} (hk : ∀ x, Kept x x) {keep : α → Bool}
    (hl : ∀ x, keep x = false → Lost x) (xs : List α) : Pruned Lost Kept xs (xs.filter keep) := by
  induction xs with
  | nil => exact .nil
  | cons x rest ih =>
    cases hx : keep x with
    | true => rw [List.filter_cons_of_pos hx]; exact .keep (hk x) ih
    | false => rw [List.filter_cons_of_neg (by simp [hx])]; exact .drop (hl x hx) ih

/-- Lists that are alike, as nothing has been deleted. -/
theorem of_map_eq {γ : Type} {erase : α → γ} {xs ys : List α} (h : xs.map erase = ys.map erase) :
    Pruned Lost (fun x y => erase x = erase y) xs ys := by
  induction xs generalizing ys with
  | nil =>
    cases ys with
    | nil => exact .nil
    | cons y ys => cases h
  | cons x rest ih =>
    cases ys with
    | nil => cases h
    | cons y ys =>
      rw [List.map_cons, List.map_cons, List.cons.injEq] at h
      exact .keep h.1 (ih h.2)

end Pruned

namespace Resolution

/-- The patterns of an override. -/
def pairOf? (store : Shared) (override : Value) : Option PatternPair :=
  match store.view override with
  | .mapping m => do
    let includes ← (Criteria.patternList store "files" "" (← Entries.field? m "files")).toOption
    let excludes ← (Criteria.patternList store "excludedFiles" ""
      ((Entries.field? m "excludedFiles").getD .null)).toOption
    some ⟨includes, excludes⟩
  | _ => none

def Rejected (accepts : String → Bool) (store : Shared) (override : Value) : Prop :=
  ∃ pair, pairOf? store override = some pair ∧ pair.rejects accepts = true

/-- A configuration without some overrides, at any depth, that a file is rejected by. -/
inductive Thinned (accepts : String → Bool) (store : Shared) : Value → Value → Prop where
  | same (config : Value) : Thinned accepts store config config
  | without {config v : Value} {m : Entries} {items items' : List Value} :
      store.view config = .mapping m → Entries.field? m "overrides" = some v →
      store.view v = .list items →
      Pruned (Rejected accepts store) (Thinned accepts store) items items' →
      Thinned accepts store config (.mapping (Entries.setField m "overrides" (.list items')))

/-- A configuration without those of its overrides that a file is rejected by. -/
def thin (accepts : String → Bool) (store : Shared) (config : Value) : Value :=
  match store.view config with
  | .mapping m => match Entries.field? m "overrides" with
    | some v => match store.view v with
      | .list items => .mapping (Entries.setField m "overrides"
          (.list (items.filter fun o => !(pairOf? store o).any (PatternPair.rejects accepts))))
      | _ => config
    | none => config
  | _ => config

theorem thinned_thin (accepts : String → Bool) (store : Shared) (config : Value) :
    Thinned accepts store config (thin accepts store config) := by
  unfold thin
  split
  · rename_i m hm
    split
    · rename_i v hv
      split
      · rename_i items hl
        refine .without hm hv hl (.filter .same (fun o ho => ?_) items)
        cases hp : pairOf? store o with
        | none => simp [hp] at ho
        | some pair => exact ⟨pair, hp, by simpa [hp] using ho⟩
      · exact .same config
    · exact .same config
  · exact .same config

namespace Thinned

variable {accepts : String → Bool} {store : Shared} {config config' : Value} {texts : List String}

/-- Deleting overrides brings no new texts. -/
theorem found (hs : Probe.texts.foundInMembers store.entries ⊆ texts)
    (h : Thinned accepts store config config') (hc : Probe.texts.found config ⊆ texts) :
    Probe.texts.found config' ⊆ texts := by
  revert hc
  refine @Thinned.rec accepts store
    (fun config config' _ => Probe.texts.found config ⊆ texts → Probe.texts.found config' ⊆ texts)
    (fun items items' _ => Probe.texts.foundInItems items ⊆ texts → Probe.texts.foundInItems items' ⊆ texts)
    ?_ ?_ ?_ ?_ ?_ config config' h
  · exact fun config hc => hc
  · intro config v m items items' hm hv hl _ ih hc
    have hmt := Probe.found_view hs hc
    rw [hm] at hmt
    have hvt : Probe.texts.found ((Entries.field? m "overrides").getD .null) ⊆ texts :=
      Probe.found_of_get? hmt (.str "overrides")
    rw [hv, Option.getD_some] at hvt
    have hlt := Probe.found_view hs hvt
    rw [hl] at hlt
    exact Probe.found_set hmt (List.nil_subset _) (ih hlt)
  · exact fun _ => List.nil_subset _
  · intro x xs ys _ _ ih hc
    exact ih (List.append_subset.mp hc).2
  · intro x y xs ys _ _ ihx ih hc
    obtain ⟨hx, hxs⟩ := List.append_subset.mp hc
    exact List.append_subset.mpr ⟨ihx hx, ih hxs⟩

/-- What deleting overrides leaves as it is. -/
theorem view (h : Thinned accepts store config config') {m : Entries}
    (hm : store.view config = .mapping m) : ∃ m', store.view config' = .mapping m' ∧
      Entries.keys m' = Entries.keys m ∧
      (∀ key, key ≠ "overrides" → Entries.field? m' key = Entries.field? m key) ∧
      ∀ ctx items, overrides store m ctx = .ok items → ∃ items',
        (∀ ctx', overrides store m' ctx' = .ok items') ∧
          Pruned (Rejected accepts store) (Thinned accepts store) items items' := by
  cases h with
  | same =>
    refine ⟨m, hm, rfl, fun _ _ => rfl, fun ctx items ho => ⟨items, fun ctx' => ?_, .refl .same items⟩⟩
    rw [overrides_eq_ok] at ho ⊢
    exact ho
  | without hm' hv hl hp =>
    rename_i v m' items items'
    rw [hm] at hm'
    cases hm'
    refine ⟨_, rfl, Entries.keys_setField hv _, fun key hk => ?_, fun ctx listed ho => ?_⟩
    · rw [Entries.field?_setField, if_neg (Ne.symm hk)]
    -- the overrides are the items of the list, also where an empty list counts as none
    · have hlisted : listed = items := by
        rcases overrides_eq_ok.mp ho with ⟨hg, rfl⟩ | ⟨v', hg, hl'⟩
        · rw [given?, hv, Option.filter_some] at hg
          split at hg
          · cases hg
          · rename_i ht
            rw [Shared.truthy, hl] at ht
            cases items with
            | nil => rfl
            | cons first rest => exact absurd rfl ht
        · rw [given?, hv, Option.filter_some] at hg
          split at hg <;> cases hg
          rw [hl] at hl'
          cases hl'
          rfl
      subst hlisted
      refine ⟨items', fun ctx' => overrides_eq_ok.mpr ?_, hp⟩
      rw [given?, Entries.field?_setField, if_pos rfl, Option.filter_some]
      cases items' with
      | nil => exact .inl ⟨rfl, rfl⟩
      | cons first rest => exact .inr ⟨_, rfl, rfl⟩

end Thinned

end Resolution

end Cascade
