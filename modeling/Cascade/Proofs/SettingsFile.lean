import Cascade.Proofs.Lookup
import Cascade.Proofs.Substitution
import Cascade.Proofs.Written

/-! # The settings in a file

What YAML can hold are scalars, lists, tuples, mappings and sets, and substitution
changes texts only. So no value in the settings of a project is settings already. -/
namespace Cascade.Settings

variable {store : Shared} {v : Value}

/-- What a text holds is no settings, and nothing in it is. -/
theorem unwrapped_of_written (h : v.Written) : Unwrapped store v := by
  induction h with
  | @leaf v h =>
    cases v with
    | list _ | tuple _ | mapping _ | object _ _ | shared _ => cases h
    | _ => exact unwrapped_scalar (fun _ hm => by cases hm) fun _ hs => by cases hs
  | mapping _ ih => exact unwrapped_mapping ih
  | list | tuple | set => exact unwrapped_scalar (fun _ hm => by cases hm) fun _ hs => by cases hs

/-! ## Settings that were loaded -/

theorem field?_substitute (bindings : List (String × String)) (m : Entries) (key : String) :
    Entries.field? (m.map fun e => (e.1, substitute bindings e.2)) key =
      (Entries.field? m key).map (substitute bindings) := by
  simp only [Entries.field?, Entries.get?, List.find?_map, Function.comp_def, Option.map_map]

/-- Substitution brings no object about. -/
theorem Stored.substituted {bindings : List (String × String)} {path : List String} {kind : Kind}
    {members : List (String × Value)} (h : Stored store (substitute bindings v) path (.object kind members)) :
    Stored store v path (.object kind members) := by
  induction path generalizing v with
  | nil =>
    cases v with
    | str text => rw [substitute_str] at h; cases h
    | list items => rw [substitute_list] at h; cases h
    | mapping entries => rw [substitute_mapping] at h; cases h
    | _ => exact h
  | cons key path ih =>
    cases v with
    | str text =>
      rw [substitute_str] at h
      exact absurd h (not_stored fun _ hm => by cases hm)
    | list items =>
      rw [substitute_list] at h
      exact absurd h (not_stored fun _ hm => by cases hm)
    | mapping entries =>
      rw [substitute_mapping] at h
      obtain ⟨next, hk, hnext⟩ := (stored_mapping rfl).mp h
      rw [field?_substitute] at hk
      obtain ⟨v, hv, rfl⟩ := Option.map_eq_some_iff.mp hk
      exact (stored_mapping rfl).mpr ⟨v, hv, ih hnext⟩
    | _ => exact h

theorem unwrapped_parse {bindings : List (String × String)} {p : Path} {text : List Char} {s : Settings}
    (h : parse bindings p text = .ok s) : Unwrapped store (.mapping s.data) := by
  obtain ⟨data, hdata, h⟩ := bind_eq_ok.mp h
  have hread : Unwrapped store data := unwrapped_of_written (Yaml.written_read (mapError_eq_ok.mp hdata))
  have hsub : Unwrapped store (if data.truthy then substitute bindings data else .mapping []) := by
    split
    · exact fun path members hs => hread path members hs.substituted
    · exact unwrapped_mapping nofun
  split at h
  · rename_i m hm
    obtain ⟨_, -, h⟩ := bind_eq_ok.mp h
    rw [hm] at hsub
    exact Except.ok.inj h ▸ hsub
  · cases h

/-- No value in the settings of a project is settings already. -/
theorem unwrapped_load {w : World} {project : Path} {s : Settings} (h : load w project = .ok s) :
    Unwrapped store (.mapping s.data) := by
  unfold load at h
  dsimp only at h
  split at h
  · obtain ⟨text, -, h⟩ := bind_eq_ok.mp h
    exact unwrapped_parse h
  · exact Except.ok.inj h ▸ unwrapped_mapping nofun

end Cascade.Settings
