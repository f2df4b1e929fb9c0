/-! # Chains of names

A chain that takes every name at most once from a finite collection is bounded
by the collection: each name leaves one less for the rest. What follows the
first occurrence of a name up to its second one is a cycle. -/
namespace Cascade

theorem mem_of_lookup {α β : Type} [BEq α] [LawfulBEq α] {l : List (α × β)} {key : α} {value : β}
    (h : l.lookup key = some value) : (key, value) ∈ l := by
  obtain ⟨before, after, rfl, _⟩ := List.lookup_eq_some_iff.mp h
  simp

/-- How many names of a collection are not in a chain yet. -/
def unused (names chain : List String) : Nat := (names.filter (· ∉ chain)).length

theorem unused_append {names chain : List String} {name : String} (hn : name ∈ names)
    (hc : name ∉ chain) : unused names (chain ++ [name]) < unused names chain := by
  have split : names.filter (· ∉ chain ++ [name]) = (names.filter (· ∉ chain)).filter (· ≠ name) := by
    rw [List.filter_filter]
    refine List.filter_congr fun n _ => ?_
    simp [and_comm]
  rw [unused, unused, split]
  have hmem : name ∈ names.filter (· ∉ chain) := List.mem_filter.mpr ⟨hn, by simpa using hc⟩
  exact List.length_filter_lt_length_iff_exists.mpr ⟨name, hmem, by simp⟩

theorem unused_le (names chain : List String) : unused names chain ≤ names.length :=
  List.length_filter_le _ _

/-- Names up to one of them: what is left from there on. -/
theorem dropWhile_of_mem {α : Type} [BEq α] [LawfulBEq α] {names : List α} {name : α} (h : name ∈ names) :
    ∃ before after, names = before ++ name :: after ∧
      names.dropWhile (· != name) = name :: after := by
  induction names with
  | nil => cases h
  | cons first rest ih =>
    by_cases hf : first = name
    · subst hf
      exact ⟨[], rest, rfl, by simp⟩
    · obtain ⟨before, after, hr, hd⟩ := ih (by simpa [Ne.symm hf] using h)
      exact ⟨first :: before, after, by rw [hr]; rfl, by simp [hf, hd]⟩

theorem nodup_snoc {names : List String} {name : String} (hd : names.Nodup) (h : name ∉ names) :
    (names ++ [name]).Nodup := by
  rw [List.nodup_append]
  refine ⟨hd, by simp, fun other ho n hn heq => h ?_⟩
  rw [List.mem_singleton.mp hn] at heq
  exact heq ▸ ho

/-- A cycle starts and ends with the same name and has no other two equal names. -/
def IsCycle (names : List String) : Prop :=
  ∃ name between, names = name :: (between ++ [name]) ∧ (name :: between).Nodup

theorem isCycle_of_mem {names : List String} {name : String} (hd : names.Nodup) (h : name ∈ names) :
    IsCycle (names.dropWhile (· != name) ++ [name]) := by
  obtain ⟨before, between, rfl, hdrop⟩ := dropWhile_of_mem h
  exact ⟨name, between, by rw [hdrop]; rfl, (List.nodup_append.mp hd).2.1⟩

end Cascade
