import Cascade.Proofs.Conversion.ClosedForm

/-! # Cycles of environments

A conversion always comes to an end. It fails just when some route from the node
has a name twice, and the failure gives the part of a route from the first of
two equal names to the second. -/
namespace Cascade.Conversion

variable {s : Setting} {node : Value}

/-- The outcome of a whole conversion: items, or a cycle on one of its routes. -/
theorem convert_ok_or_cycle (h : WellShaped s node) :
    (∃ items, (convert s node).result = .ok items) ∨
    ∃ before name between last, Leads s node (before ++ name :: (between ++ [name])) last ∧
      (name :: between).Nodup ∧
      (convert s node).result =
        .error (.problem (.environmentCycle (name :: (between ++ [name])))) := by
  rw [convert_result, translated]
  rcases reached_ok_or_cycle h.legible (closed_namesAround s node) (found_subset_namesAround s node)
    (unused_namesAround s node []) with ⟨items, hr⟩ | ⟨names, name, last, hl, hd, -, hin, hr⟩
  · exact .inl ⟨items.toList, by rw [hr]; rfl⟩
  · obtain ⟨before, between, rfl, hdrop⟩ := dropWhile_of_mem hin
    refine .inr ⟨before, name, between, last, by simpa using hl, ?_, ?_⟩
    · exact (List.nodup_append.mp hd).2.1
    · rw [hr, hdrop]
      rfl

/-- The conversion of what it can read ends with items or with a cycle. -/
theorem convert_legible (h : Legible s node) : (∃ items, (convert s node).result = .ok items) ∨
    ∃ cycle, (convert s node).result = .error (.problem (.environmentCycle cycle)) := by
  rw [convert_result, translated]
  rcases reached_ok_or_cycle h (closed_namesAround s node) (found_subset_namesAround s node)
    (unused_namesAround s node []) with ⟨items, hr⟩ | ⟨names, name, last, -, -, -, -, hr⟩
  · exact .inl ⟨items.toList, by rw [hr]; rfl⟩
  · exact .inr ⟨_, by rw [hr]; rfl⟩

theorem convert_ok_iff (h : WellShaped s node) :
    (∃ items, (convert s node).result = .ok items) ↔
      ∀ names last, Leads s node names last → names.Nodup := by
  rw [convert_result, translated]
  constructor
  · rintro ⟨items, hr⟩ names last hl
    cases hc : reached s (chainBound s node) [] node with
    | error e => rw [hc] at hr; cases hr
    | ok r => exact (acyclic_of_ok h hc names last hl).1
  · intro ha
    exact translated_of_acyclic h fun names last hl => ⟨ha names last hl, by simp⟩

/-- A conversion gives items or reports a cycle. It reports one if and only if
some route from the node has a name twice. The names of the report are those of
a part of a route, the first and the last are equal, and there is no other pair
of equal ones. -/
theorem convert_cycle (h : WellShaped s node) :
    ((∃ items, (convert s node).result = .ok items) ∨
      ∃ cycle, (convert s node).result = .error (.problem (.environmentCycle cycle))) ∧
    ((∃ cycle, (convert s node).result = .error (.problem (.environmentCycle cycle))) ↔
      ∃ names last, Leads s node names last ∧ ¬ names.Nodup) ∧
    ∀ cycle, (convert s node).result = .error (.problem (.environmentCycle cycle)) →
      ∃ before name between last, cycle = name :: (between ++ [name]) ∧
        (name :: between).Nodup ∧ Leads s node (before ++ cycle) last := by
  have hcases := convert_ok_or_cycle h
  have hiff := convert_ok_iff h
  refine ⟨?_, ?_, ?_⟩
  · rcases hcases with hok | ⟨_, _, _, _, -, -, hr⟩
    · exact .inl hok
    · exact .inr ⟨_, hr⟩
  · constructor
    · rintro ⟨cycle, hr⟩
      rcases hcases with ⟨items, hok⟩ | ⟨before, name, between, last, hl, -, -⟩
      · rw [hr] at hok
        cases hok
      · exact ⟨_, last, hl, by simp [List.nodup_append]⟩
    · rintro ⟨names, last, hl, hd⟩
      rcases hcases with hok | ⟨_, _, _, _, -, -, hr⟩
      · exact absurd (hiff.mp hok names last hl) hd
      · exact ⟨_, hr⟩
  · intro cycle hr
    rcases hcases with ⟨items, hok⟩ | ⟨before, name, between, last, hl, hd, hr'⟩
    · rw [hr] at hok
      cases hok
    · rw [hr] at hr'
      cases hr'
      exact ⟨before, name, between, last, rfl, hd, hl⟩

/-! An environment of the table whose fragment is a shared value: it leads to
another one, and that one back to it. -/

def loopSetting : Setting where
  table := ⟨[(.str "a", fragmentOf "a" (switchedOn ["b"])), (.str "b", .shared "again"),
    (.str "c", fragmentOf "c" (switchedOn ["b"]))]⟩
  shared := ⟨[("again", fragmentOf "b" (switchedOn ["c"]))]⟩

def loopNodes : List Value :=
  [fragmentOf "a" (switchedOn ["b"]), .shared "again", fragmentOf "c" (switchedOn ["b"])]

theorem wellShaped_loop : WellShaped loopSetting (fragmentOf "a" (switchedOn ["b"])) := by
  refine .of_invariant (· ∈ loopNodes) (by simp [loopNodes]) ?_ ?_
  · intro v hv
    simp only [loopNodes, List.mem_cons, List.not_mem_nil, or_false] at hv
    rcases hv with rfl | rfl | rfl <;> exact ⟨_, rfl, by decide⟩
  · rintro v name fragment hv ⟨m, hm, -, -, hf⟩
    simp only [loopNodes, List.mem_cons, List.not_mem_nil, or_false] at hv
    rcases hv with rfl | rfl | rfl <;> cases hm
    · have hs : (name, fragment) ∈ [("b", .shared "again")] := hf
      simp only [List.mem_singleton, Prod.mk.injEq] at hs
      simp [loopNodes, hs.2]
    · have hs : (name, fragment) ∈ [("c", fragmentOf "c" (switchedOn ["b"]))] := hf
      simp only [List.mem_singleton, Prod.mk.injEq] at hs
      simp [loopNodes, hs.2]
    · have hs : (name, fragment) ∈ [("b", .shared "again")] := hf
      simp only [List.mem_singleton, Prod.mk.injEq] at hs
      simp [loopNodes, hs.2]

theorem convert_loop : WellShaped loopSetting (fragmentOf "a" (switchedOn ["b"])) ∧
    (convert loopSetting (fragmentOf "a" (switchedOn ["b"]))).result =
      .error (.problem (.environmentCycle ["b", "c", "b"])) ∧
    ∃ before last,
      Leads loopSetting (fragmentOf "a" (switchedOn ["b"])) (before ++ ["b", "c", "b"]) last := by
  have hr : (convert loopSetting (fragmentOf "a" (switchedOn ["b"]))).result =
      .error (.problem (.environmentCycle ["b", "c", "b"])) := rfl
  obtain ⟨before, name, between, last, -, -, hl⟩ := (convert_cycle wellShaped_loop).2.2 _ hr
  exact ⟨wellShaped_loop, hr, before, last, hl⟩

end Cascade.Conversion
