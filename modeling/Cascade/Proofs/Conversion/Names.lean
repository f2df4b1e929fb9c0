import Cascade.Proofs.Contents
import Cascade.Proofs.Conversion.Expansion

/-! # The names that environments can have

The name of an environment that a node switches on is a key of a mapping: in the
node itself, in the table, or in a shared value. There are no others, and the
fragments that names stand for have no others either, so the chain of a
conversion runs out of new names before it runs out of fuel. -/
namespace Cascade.Conversion

theorem found_subset_namesAround (s : Setting) (node : Value) :
    Probe.keys.found node ⊆ namesAround s node :=
  List.Subset.trans (List.subset_append_left _ _) (List.subset_append_left _ _)

/-- A collection that has the keys of the table and of all shared values. -/
structure Closed (s : Setting) (names : List String) : Prop where
  table : Probe.keys.foundInEntries s.table.entries ⊆ names
  shared : Probe.keys.foundInMembers s.shared.entries ⊆ names

theorem closed_namesAround (s : Setting) (node : Value) : Closed s (namesAround s node) :=
  ⟨fun _ hn => List.mem_append_left _ (List.mem_append_right _ hn),
    fun _ hn => List.mem_append_right _ hn⟩

variable {s : Setting} {names : List String}

namespace Closed

theorem entriesIn (hc : Closed s names) {v : Value} (h : Probe.keys.found v ⊆ names) :
    Probe.keys.foundInEntries (s.shared.entriesIn v) ⊆ names := by
  rw [Shared.entriesIn]
  cases hm : s.shared.entriesOrNone v with
  | error e => exact List.nil_subset _
  | ok m => exact Probe.found_entriesOrNone hc.shared h hm

/-- The names of the fragments that a node expands are in the collection, and
so are all names in the fragments. -/
theorem step (hc : Closed s names) {m : Entries} (hm : Probe.keys.foundInEntries m ⊆ names)
    {name : String} {fragment : Value} (h : (name, fragment) ∈ steps s (namedEnvironments s m) (envOf s m)) :
    name ∈ names ∧ Probe.keys.found fragment ⊆ names := by
  have enabled : ∀ n ∈ enabledNames s (envOf s m), n ∈ names := by
    intro n hn
    obtain ⟨e, he, hs⟩ := List.mem_filterMap.mp hn
    split at hs
    · have hk : e.1 = .str n := by
        revert hs
        cases e.1 <;> simp [Value.str?]
      refine hc.entriesIn (Probe.found_of_get? hm _) ((Probe.found_of_mem_entries he).1 ?_)
      rw [hk]
      simp [Probe.keys, Value.text]
    · cases hs
  rw [steps, List.mem_append] at h
  rcases h with h | h
  · obtain ⟨n, hn, hs⟩ := List.mem_filterMap.mp h
    obtain ⟨content, hg, hp⟩ := Option.map_eq_some_iff.mp hs
    cases hp
    refine ⟨enabled _ hn, ?_⟩
    have := Probe.found_of_get? hc.table (.str name)
    rwa [show Entries.get? s.table.entries (.str name) = some fragment from hg] at this
  · obtain ⟨n, hn, hs⟩ := List.mem_filterMap.mp h
    split at hs
    · cases hs
    · obtain ⟨content, hl, hp⟩ := Option.map_eq_some_iff.mp hs
      cases hp
      refine ⟨enabled _ hn, ?_⟩
      obtain ⟨p, hp, hin⟩ := List.mem_flatMap.mp (List.mem_reverse.mp (mem_of_lookup hl))
      obtain ⟨e, he, hq⟩ := List.mem_map.mp hin
      cases hq
      have hp : Probe.keys.found p.2 ⊆ names :=
        List.Subset.trans (Probe.found_of_mem_entries hp).2 (hc.entriesIn (Probe.found_of_get? hm _))
      exact List.Subset.trans (Probe.found_of_mem_entries he).2
        (hc.entriesIn (Probe.found_member hc.shared (Probe.found_member hc.shared hp _) _))

end Closed

end Cascade.Conversion
