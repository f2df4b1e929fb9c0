import Cascade.Proofs.Chain
import Cascade.Value.Probe

/-! # What is in values

A probe collects texts from a value at any depth. What is reached from a value
through its members, and through the references in it, has no other texts than
the value and the shared values. -/
namespace Cascade

theorem Entries.forall_mem_set {P : Value → Prop} {m : Entries} {key value : Value}
    (hm : ∀ e ∈ m, P e.2) (hv : P value) : ∀ e ∈ Entries.set m key value, P e.2 := by
  induction m with
  | nil => simpa [Entries.set] using hv
  | cons first rest ih =>
    have hrest : ∀ e ∈ rest, P e.2 := fun e he => hm e (List.mem_cons_of_mem _ he)
    unfold Entries.set
    split
    · exact List.forall_mem_cons.mpr ⟨hv, hrest⟩
    · exact List.forall_mem_cons.mpr ⟨hm first (by simp), ih hrest⟩

/-- The values of a merged mapping are those of the two mappings. -/
theorem Entries.forall_mem_merge {P : Value → Prop} {m n : Entries} (hm : ∀ e ∈ m, P e.2)
    (hn : ∀ e ∈ n, P e.2) : ∀ e ∈ Entries.merge m n, P e.2 := by
  unfold Entries.merge
  induction n generalizing m with
  | nil => exact hm
  | cons first rest ih =>
    exact ih (Entries.forall_mem_set hm (hn first (by simp))) fun e he => hn e (List.mem_cons_of_mem _ he)

namespace Probe

variable {p : Probe} {names : List String}

@[simp] theorem found_null : p.found .null = [] := p.leaf_null

theorem found_of_mem_items {items : List Value} {v : Value} (h : v ∈ items) :
    p.found v ⊆ p.foundInItems items := by
  induction items with
  | nil => cases h
  | cons first rest ih =>
    rcases List.mem_cons.mp h with rfl | h
    · exact List.subset_append_left _ _
    · exact List.Subset.trans (ih h) (List.subset_append_right _ _)

theorem found_of_mem_entries {entries : Entries} {e : Value × Value} (h : e ∈ entries) :
    p.key e.1 ⊆ p.foundInEntries entries ∧ p.found e.2 ⊆ p.foundInEntries entries := by
  induction entries with
  | nil => cases h
  | cons first rest ih =>
    rcases List.mem_cons.mp h with rfl | h
    · exact ⟨fun n hn => List.mem_append_left _ (List.mem_append_left _ hn),
        fun n hn => List.mem_append_left _ (List.mem_append_right _ hn)⟩
    · obtain ⟨hk, hv⟩ := ih h
      exact ⟨fun n hn => List.mem_append_right _ (hk hn), fun n hn => List.mem_append_right _ (hv hn)⟩

theorem found_of_mem_members {members : List (String × Value)} {m : String × Value}
    (h : m ∈ members) : p.found m.2 ⊆ p.foundInMembers members := by
  induction members with
  | nil => cases h
  | cons first rest ih =>
    rcases List.mem_cons.mp h with rfl | h
    · exact List.subset_append_left _ _
    · exact List.Subset.trans (ih h) (List.subset_append_right _ _)

theorem found_of_lookup {members : List (String × Value)} (h : p.foundInMembers members ⊆ names)
    (name : String) : p.found ((members.lookup name).getD .null) ⊆ names := by
  cases hl : members.lookup name with
  | none => simp
  | some content => exact List.Subset.trans (found_of_mem_members (mem_of_lookup hl)) h

theorem found_of_get? {m : Entries} (h : p.foundInEntries m ⊆ names) (key : Value) :
    p.found ((Entries.get? m key).getD .null) ⊆ names := by
  rw [Entries.get?]
  cases hf : m.find? fun e => e.1.same key with
  | none => simp
  | some e => exact List.Subset.trans (found_of_mem_entries (List.mem_of_find?_eq_some hf)).2 h

theorem foundInEntries_subset {m : Entries}
    (h : ∀ e ∈ m, p.key e.1 ⊆ names ∧ p.found e.2 ⊆ names) : p.foundInEntries m ⊆ names := by
  induction m with
  | nil => exact List.nil_subset _
  | cons e rest ih =>
    obtain ⟨hk, hv⟩ := h e (by simp)
    have ih := ih fun e he => h e (List.mem_cons_of_mem _ he)
    simp only [foundInEntries, List.append_subset]
    exact ⟨⟨hk, hv⟩, ih⟩

theorem found_set {m : Entries} {key value : Value} (hm : p.foundInEntries m ⊆ names)
    (hk : p.key key ⊆ names) (hv : p.found value ⊆ names) :
    p.foundInEntries (Entries.set m key value) ⊆ names := by
  induction m with
  | nil =>
    simp only [Entries.set, foundInEntries, List.append_nil, List.append_subset]
    exact ⟨hk, hv⟩
  | cons e rest ih =>
    simp only [foundInEntries, List.append_subset] at hm
    unfold Entries.set
    split
    · simp only [foundInEntries, List.append_subset]
      exact ⟨⟨hm.1.1, hv⟩, hm.2⟩
    · simp only [foundInEntries, List.append_subset]
      exact ⟨hm.1, ih hm.2⟩

theorem found_merge {m n : Entries} (hm : p.foundInEntries m ⊆ names)
    (hn : p.foundInEntries n ⊆ names) : p.foundInEntries (Entries.merge m n) ⊆ names := by
  unfold Entries.merge
  induction n generalizing m with
  | nil => exact hm
  | cons e rest ih =>
    simp only [foundInEntries, List.append_subset] at hn
    exact ih (found_set hm hn.1.1 hn.1.2) hn.2

/-! ## Through references -/

variable {store : Shared}

theorem found_view (hs : p.foundInMembers store.entries ⊆ names) {v : Value} (h : p.found v ⊆ names) :
    p.found (store.view v) ⊆ names := by
  unfold Shared.view
  split
  · exact found_of_lookup hs _
  · exact h

theorem found_member (hs : p.foundInMembers store.entries ⊆ names) {v : Value}
    (h : p.found v ⊆ names) (name : String) : p.found (store.member v name) ⊆ names := by
  have hv := found_view hs h
  unfold Shared.member
  split
  · rename_i m hm
    rw [hm] at hv
    exact found_of_get? hv _
  · rename_i members hm
    rw [hm] at hv
    exact found_of_lookup hv _
  · simp

theorem found_entriesOrNone (hs : p.foundInMembers store.entries ⊆ names) {v : Value}
    (h : p.found v ⊆ names) {m : Entries} (hm : store.entriesOrNone v = .ok m) :
    p.foundInEntries m ⊆ names := by
  have hv := found_view hs h
  unfold Shared.entriesOrNone Shared.entriesOf at hm
  split at hm
  · split at hm
    · rename_i m' hm'
      cases hm
      rwa [hm'] at hv
    · cases hm
  · cases hm
    exact List.nil_subset _

end Probe

end Cascade
