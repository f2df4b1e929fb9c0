import Cascade.Module
import Cascade.Proofs.Action
import Cascade.Proofs.Text

/-! # Modules in files

The key of a module file tells the name that the file is loaded under, and as much of
its resolved path as some digits of a digest do. A file is run when its key is not
registered, and the key is registered when the run succeeds. -/
namespace Cascade

namespace Digest

theorem le_length_hexDigits (w : UInt32) : 8 ≤ (hexDigits w).length := by
  simp only [hexDigits, List.length_append, List.length_replicate]
  omega

theorem le_length_hexOf (s : String) : 64 ≤ (hexOf s).toList.length := by
  have hwords : ∀ words : List UInt32, 8 * words.length ≤ (words.flatMap hexDigits).length := by
    intro words
    induction words with
    | nil => simp
    | cons w rest ih =>
      have := le_length_hexDigits w
      simp only [List.flatMap_cons, List.length_append, List.length_cons]
      omega
  have height : (sha256 s.toUTF8.toList).length = 8 := rfl
  have := hwords (sha256 s.toUTF8.toList)
  rw [hexOf, String.toList_ofList]
  omega

end Digest

namespace Module

/-! ## Keys -/

/-- The digits of a resolved path that are part of a key. -/
@[irreducible] def digits (p : Path) : String := Text.take 12 (Digest.hexOf p.text)

/-- The key of a file with a resolved path. -/
def keyOf (name : String) (p : Path) : String :=
  registryName ++ "." ++ Text.swap '.' '_' name ++ "_" ++ digits p

theorem length_digits (p : Path) : (digits p).toList.length = 12 := by
  have := Digest.le_length_hexOf p.text
  rw [digits, Text.take, String.toList_ofList, List.length_take]
  omega

theorem key_eq_ok {w : World} {name key : String} {path : Path} :
    Module.key w name path = .ok key ↔ ∃ p, w.resolve path = .ok p ∧ keyOf name p = key := by
  have hmap : Module.key w name path = (w.resolve path).map (keyOf name) := by
    unfold Module.key keyOf digits
    cases w.resolve path <;> rfl
  rw [hmap, map_eq_ok]

/-- A key tells the name, up to its dots, and the digits. -/
theorem keyOf_inj {name name' : String} {p p' : Path} : keyOf name p = keyOf name' p' ↔
    Text.swap '.' '_' name = Text.swap '.' '_' name' ∧ digits p = digits p' := by
  refine ⟨fun h => ?_, fun ⟨hname, hdigits⟩ => by rw [keyOf, keyOf, hname, hdigits]⟩
  have hlist := congrArg String.toList h
  simp only [keyOf, String.toList_append, List.append_assoc] at hlist
  simp only [List.append_cancel_left_eq, ← List.append_assoc _ "_".toList] at hlist
  obtain ⟨hname, hdigits⟩ := List.append_inj' hlist (by rw [length_digits, length_digits])
  exact ⟨String.toList_inj.mp (List.append_cancel_right hname), String.toList_inj.mp hdigits⟩

theorem startsWith_keyOf (name : String) (p : Path) : Text.startsWith (keyOf name p) (registryName ++ ".") = true := by
  rw [keyOf, String.append_assoc, String.append_assoc]
  exact Text.startsWith_append _ _

/-! ## Loading -/

/-- What a file gives that has not been loaded. -/
def loaded (w : World) (name : String) (path : Path) : Except Failure Value := do
  let key ← (key w name path).mapError .fault
  if !Text.endsWith path.name ".py" then .error (.notLoadable path.text)
  else match execution w path with
    | .raises kind message _ => .error (.raised kind message)
    | .defines members => .ok (.object (.moduleNamed key) members)

variable {name : String} {path p : Path} {s : Session}

/-- A module that is loaded has its key for a name. -/
theorem named_of_loaded {w : World} (hp : w.resolve path = .ok p) {v : Value} (h : loaded w name path = .ok v) :
    ∃ members, v = .object (.moduleNamed (keyOf name p)) members := by
  rw [loaded, key_eq_ok.mpr ⟨p, hp, rfl⟩] at h
  simp only [mapError_ok, ok_bind] at h
  split at h
  · cases h
  · split at h
    · cases h
    · cases h
      exact ⟨_, rfl⟩

theorem endsWith_of_loaded {w : World} {v : Value} (h : loaded w name path = .ok v) :
    Text.endsWith path.name ".py" = true := by
  obtain ⟨key, -, h⟩ := bind_eq_ok.mp h
  by_cases hpy : Text.endsWith path.name ".py" = true
  · exact hpy
  · rw [if_pos (by simpa using hpy)] at h
    cases h

/-- A path with a NUL is not loaded. -/
theorem fromFile_unresolved {e : Fault} (hp : s.world.resolve path = .error e) :
    (fromFile name path).runFrom s = (loaded s.world name path, s) := by
  unfold fromFile loaded Module.key
  simp only [Action.runFrom_bind, Action.runFrom_world, Action.runFrom_ofFault, hp]
  rfl

theorem fromFile_registered (hp : s.world.resolve path = .ok p) {v : Value}
    (hl : s.registry.lookup (keyOf name p) = some v) : (fromFile name path).runFrom s = (.ok v, s) := by
  unfold fromFile
  simp only [Action.runFrom_bind, Action.runFrom_world, Action.runFrom_ofFault, key_eq_ok.mpr ⟨p, hp, rfl⟩,
    mapError_ok, Action.runFrom_get, hl]
  rfl

/-- A file that is not registered is run, and registered when it defines a module. -/
theorem fromFile_new (hp : s.world.resolve path = .ok p) (hl : s.registry.lookup (keyOf name p) = none) :
    (fromFile name path).runFrom s = (loaded s.world name path, { s with
      registry := ((loaded s.world name path).toOption.map (keyOf name p, ·)).toList ++ s.registry
      runs := s.runs ++ if Text.endsWith path.name ".py" then [p] else [] }) := by
  unfold fromFile loaded
  simp only [Action.runFrom_bind, Action.runFrom_world, Action.runFrom_ofFault, key_eq_ok.mpr ⟨p, hp, rfl⟩,
    mapError_ok, Action.runFrom_get, hl, ok_bind]
  by_cases hpy : Text.endsWith path.name ".py" = true
  · simp only [hpy, Bool.not_true, Bool.false_eq_true, if_false, if_true, Action.runFrom_bind, noteRun,
      Action.runFrom_modify, hp]
    cases execution s.world path <;> rfl
  · simp only [hpy, Bool.not_false, if_true, Bool.false_eq_true, if_false, List.append_nil]
    rfl

end Module

end Cascade
