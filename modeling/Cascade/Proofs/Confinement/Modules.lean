import Mathlib.Data.List.Basic
import Cascade.Module
import Cascade.Proofs.Package

/-! # Files of modules are below the directory

A part of a module's name is the name of one directory or none, whatever the package is
that the module belongs to: it has no slash since a package is split at its slashes, and no
point since the name is split at its points, so that it is not `..` either. -/
namespace Cascade

namespace Path

variable {p directory : Path} {name : String} {names : List String}

/-- A name that leads down by one directory. -/
structure IsPlain (name : String) : Prop where
  nonempty : name ≠ ""
  here : name ≠ "."
  above : name ≠ ".."
  single : '/' ∉ name.toList

/-- The path down from another one. -/
def down (directory : Path) (names : List String) : Path := ⟨directory.root, directory.names ++ names⟩

theorem IsPlain.isProper (h : IsPlain name) : isProper name = true :=
  Bool.and_eq_true_iff.mpr ⟨bne_iff_ne.mpr h.nonempty, bne_iff_ne.mpr h.here⟩

/-- One or more plain names behind a directory. -/
def IsBelow (p directory : Path) : Prop := ∃ names, names ≠ [] ∧ (∀ name ∈ names, IsPlain name) ∧ p = directory.down names

theorem down_down (directory : Path) (names names' : List String) :
    (directory.down names).down names' = directory.down (names ++ names') := by
  simp [down]

theorem ofString_of_not_mem (h : '/' ∉ name.toList) : ofString name = ⟨"", [name].filter isProper⟩ := by
  have hfields : Text.fields '/' name = [name] := by
    rw [Text.fields, List.splitOn_eq_singleton h, List.map_singleton, String.ofList_toList]
  have hroot : rootOf name = "" := by
    unfold rootOf
    split
    · rename_i heq
      simp [heq] at h
    · rename_i heq
      simp [heq] at h
    · rename_i heq
      simp [heq] at h
    · rfl
  rw [ofString, hfields, hroot]

/-- A name without a slash leads down, unless it is no name. -/
theorem child_eq_down (directory : Path) (h : '/' ∉ name.toList) :
    directory.child name = directory.down ([name].filter isProper) := by
  rw [child, ofString_of_not_mem h]
  rfl

theorem IsPlain.child (h : IsPlain name) : directory.child name = directory.down [name] := by
  rw [child_eq_down directory h.single, List.filter_cons_of_pos h.isProper, List.filter_nil]

theorem foldl_child (directory : Path) (h : ∀ name ∈ names, '/' ∉ name.toList) :
    names.foldl child directory = directory.down (names.filter isProper) := by
  induction names generalizing directory with
  | nil => simp [down]
  | cons name rest ih =>
    obtain ⟨hname, hrest⟩ := List.forall_mem_cons.mp h
    rw [List.foldl_cons, ih _ hrest, child_eq_down directory hname, down_down, ← List.filter_append, List.singleton_append]

/-- A part of a name that is a name has no points, so it leads down. -/
theorem isPlain_of_isProper (hproper : isProper name = true) (hslash : '/' ∉ name.toList) (hpoint : '.' ∉ name.toList) :
    IsPlain name where
  nonempty := (bne_iff_ne.mp (Bool.and_eq_true_iff.mp hproper).1)
  here := (bne_iff_ne.mp (Bool.and_eq_true_iff.mp hproper).2)
  above := by
    rintro rfl
    exact hpoint (by decide)
  single := hslash

theorem isPlain_file (h : '/' ∉ name.toList) : IsPlain (name ++ ".py") := by
  have hlength : ∀ short : String, short.length < 3 → name ++ ".py" ≠ short := by
    rintro short hshort rfl
    have hending : ".py".length = 3 := rfl
    rw [String.length_append, hending] at hshort
    omega
  refine ⟨hlength "" (by decide), hlength "." (by decide), hlength ".." (by decide), ?_⟩
  rw [String.toList_append, List.mem_append, not_or]
  exact ⟨h, by decide⟩

end Path

namespace Module

/-- The files that a module may have below a directory, in the order in which they are looked for. -/
def filesOf (name : String) (directory : Path) : List Path :=
  let parts := Text.fields '.' name
  let base := parts.dropLast.foldl Path.child directory
  let last := parts.getLast?.getD ""
  [base.child (last ++ ".py"), (base.child last).child packageFile]

variable {w : World} {name : String} {directory p : Path}

/-- The file of a module is the first one that exists. -/
theorem findFile_eq (w : World) (name : String) (directory : Path) :
    findFile w name directory = (filesOf name directory).find? w.isFile := by
  simp only [findFile, filesOf, List.find?_cons, List.find?_nil]
  split
  · simp [*]
  · split <;> simp [*]

theorem isPlain_packageFile : Path.IsPlain packageFile := ⟨by decide, by decide, by decide, by decide⟩

theorem parts_single (h : '/' ∉ name.toList) : ∀ part ∈ Text.fields '.' name, '/' ∉ part.toList ∧ '.' ∉ part.toList := by
  intro part hpart
  refine ⟨fun hmem => ?_, Text.not_mem_of_mem_fields hpart⟩
  obtain ⟨chars, hchars, rfl⟩ := List.mem_map.mp hpart
  rw [String.toList_ofList] at hmem
  exact h (Text.mem_of_mem_splitOn hchars hmem)

/-- The parts of a name without slashes lead down, except for empty ones. -/
theorem filesOf_eq (h : '/' ∉ name.toList) (directory : Path) : ∃ parents last,
    Text.fields '.' name = parents ++ [last] ∧ filesOf name directory =
      [directory.down (parents.filter Path.isProper ++ [last ++ ".py"]),
        directory.down ((parents ++ [last]).filter Path.isProper ++ [packageFile])] := by
  have hsingle := parts_single h
  obtain ⟨parents, last, hparts⟩ := (List.eq_nil_or_concat' _).resolve_left (Text.fields_ne_nil '.' name)
  rw [hparts, List.forall_mem_append, List.forall_mem_singleton] at hsingle
  obtain ⟨hparents, hlast, -⟩ := hsingle
  refine ⟨parents, last, hparts, ?_⟩
  rw [filesOf, hparts, List.dropLast_concat, List.getLast?_concat, Option.getD_some,
    Path.foldl_child directory fun part hpart => (hparents part hpart).1, (Path.isPlain_file hlast).child,
    Path.child_eq_down _ hlast, isPlain_packageFile.child, Path.down_down, Path.down_down, Path.down_down,
    List.filter_append, List.append_assoc]

/-- The files of a module whose name has no slash. -/
theorem isBelow_of_mem_filesOf (h : '/' ∉ name.toList) (hp : p ∈ filesOf name directory) : p.IsBelow directory := by
  obtain ⟨parents, last, hparts, hfiles⟩ := filesOf_eq h directory
  have hsingle := parts_single h
  rw [hparts] at hsingle
  have hplain : ∀ part ∈ (parents ++ [last]).filter Path.isProper, Path.IsPlain part := by
    intro part hpart
    obtain ⟨hmem, hproper⟩ := List.mem_filter.mp hpart
    exact Path.isPlain_of_isProper hproper (hsingle part hmem).1 (hsingle part hmem).2
  have hlast : Path.IsPlain (last ++ ".py") := Path.isPlain_file (hsingle last (by simp)).1
  have hdown : ∀ names file, (∀ part ∈ names, Path.IsPlain part) → Path.IsPlain file →
      (directory.down (names ++ [file])).IsBelow directory := by
    intro names file hnames hfile
    exact ⟨_, by simp, List.forall_mem_append.mpr ⟨hnames, by simpa using hfile⟩, rfl⟩
  rw [hfiles, List.mem_cons, List.mem_singleton] at hp
  rcases hp with rfl | rfl
  · refine hdown _ _ (fun part hpart => hplain part ?_) hlast
    rw [List.filter_append]
    exact List.mem_append_left _ hpart
  · exact hdown _ _ hplain isPlain_packageFile

theorem isBelow_of_findFile (h : '/' ∉ name.toList) (hp : findFile w name directory = some p) : p.IsBelow directory :=
  isBelow_of_mem_filesOf h (List.mem_of_find?_eq_some ((findFile_eq w name directory).symm.trans hp))

end Module

/-- The name of a package's module has no slash. -/
theorem Package.not_mem_moduleName (package : String) : '/' ∉ (moduleName package).toList := by
  rw [moduleName_toList, List.mem_map]
  rintro ⟨c, -, hc⟩
  unfold moduleChar at hc
  split at hc
  · cases hc
  · rename_i hslash
    split at hc
    · cases hc
    · exact hslash (beq_iff_eq.mpr hc)

end Cascade
