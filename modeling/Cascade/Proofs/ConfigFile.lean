import Cascade.Proofs.World

/-! # Paths to a configuration file

A file below a directory that there is can be had by its path from the directory
and by the resolved one, and what it contains is the same: how it is read depends
on its last name only. The name tells the format, the format what document the text
holds, and a configuration is a document that is a mapping or null. -/
namespace Cascade

namespace Path

/-- Going down does not change what was climbed before. -/
theorem climb_append (front : List String) {names : List String} (hn : ".." ∉ names) :
    climb (front ++ names) = climb front ++ names := by
  induction names generalizing front with
  | nil => rw [List.append_nil, List.append_nil]
  | cons name rest ih =>
    rw [List.mem_cons, not_or] at hn
    rw [List.append_cons, ih (front ++ [name]) hn.2, climb_append_of_ne front (Ne.symm hn.1),
      ← List.append_cons]

theorem climb_subset (names : List String) : climb names ⊆ names := by
  suffices h : ∀ names done : List String, names.foldl
      (fun done n => if n == ".." then done.drop 1 else n :: done) done ⊆ done ++ names by
    intro name hname
    rw [climb, List.mem_reverse] at hname
    exact h names [] hname
  intro names
  induction names with
  | nil => exact fun done => List.subset_append_left _ _
  | cons name rest ih =>
    intro done
    rw [List.foldl_cons]
    refine List.Subset.trans (ih _) ?_
    split
    · exact List.append_subset.mpr ⟨List.subset_append_of_subset_left _ (List.drop_subset 1 done),
        List.subset_append_of_subset_right _ (List.subset_cons_self name rest)⟩
    · rw [List.append_cons]
      exact List.append_subset.mpr ⟨List.cons_subset.mpr ⟨by simp, by simp⟩, List.subset_append_right _ _⟩

theorem join_of_root {p q : Path} (hq : q.root = "") : p.join q = ⟨p.root, p.names ++ q.names⟩ := by
  rw [join, if_neg (by simp [isAbsolute, hq])]

theorem join_of_isResolved {p q : Path} (hq : q.IsResolved) : p.join q = q := by
  rw [join, if_pos (by simp [isAbsolute, hq.1])]

/-- A resolved path is resolved to itself. -/
theorem resolve_of_resolved {directory directory' p q : Path} (h : resolve directory p = .ok q) :
    resolve directory' q = .ok q := by
  have hres := isResolved_of_resolve h
  have hjoin : directory'.join q = q := join_of_isResolved hres
  simp only [resolve] at h
  split at h
  · cases h
  · rename_i hnul
    cases h
    have hclimb : climb (climb (directory.join p).names) = climb (directory.join p).names := by
      simpa [climb] using climb_append [] (not_mem_climb (directory.join p).names)
    simp only [resolve, hjoin, hclimb]
    rw [if_neg]
    simp only [hasNul, List.any_eq_true, not_exists, not_and] at hnul ⊢
    exact fun name hname => hnul name (climb_subset _ hname)

theorem name_join {base down : Path} (hd : down.root = "") (hne : down.names ≠ []) :
    (base.join down).name = down.name := by
  rw [join_of_root hd, name, name, List.getLast?_append, List.getLast?_eq_some_getLast hne, Option.some_or]

/-- A path that goes down from a directory keeps its last name. -/
theorem keepsName_join {base down : Path} (hd : down.root = "") (hn : ".." ∉ down.names)
    (hne : down.names ≠ []) : (base.join down).KeepsName := by
  have hnames : (base.join down).names =
      (base.names ++ down.names.dropLast) ++ [down.names.getLast hne] := by
    rw [join_of_root hd, List.append_assoc, List.dropLast_concat_getLast]
  exact keepsName_of_last hnames fun h => hn (h ▸ List.getLast_mem hne)

theorem rootOf_dot (s : String) : rootOf ("./" ++ s) = "" := by
  rw [rootOf, String.toList_append]
  rfl

/-- A path from the directory that is named as the one here. -/
theorem ofString_dot {s : String} (hs : (ofString s).root = "") : ofString ("./" ++ s) = ofString s := by
  have hfields : Text.fields '/' ("./" ++ s) = "." :: Text.fields '/' s := by
    rw [Text.fields, String.toList_append]
    show List.map String.ofList (List.splitOn '/' ('.' :: '/' :: s.toList)) = _
    rw [List.splitOn_cons_eq_if_modifyHead, List.splitOn_cons_eq_if_modifyHead]
    rfl
  have hdot : isProper "." = false := by decide
  rw [ofString, rootOf_dot, hfields, List.filter_cons_of_neg (by simp [hdot])]
  exact Path.mk.injEq .. |>.mpr ⟨hs.symm, rfl⟩

/-! ## Suffixes -/

theorem suffix_congr {p q : Path} (h : q.name = p.name) : q.suffix = p.suffix := by
  rw [suffix, suffix, h]

end Path

theorem Text.eq_of_cutLast {sep : Char} {s front back : String} (h : Text.cutLast sep s = some (front, back)) :
    s.toList = front.toList ++ sep :: back.toList := by
  simp only [Text.cutLast] at h
  split at h
  · rename_i hc
    obtain ⟨before, after, -, hdrop⟩ := dropWhile_of_mem (List.contains_iff_mem.mp hc)
    have hsplit := List.takeWhile_append_dropWhile (p := (· != sep)) (l := s.toList.reverse)
    simp only [hdrop, List.drop_succ_cons, List.drop_zero, Option.some.injEq, Prod.mk.injEq] at h hsplit
    obtain ⟨rfl, rfl⟩ := h
    have hreverse := (congrArg List.reverse hsplit).symm
    rw [List.reverse_reverse, List.reverse_append, List.reverse_cons, List.append_assoc] at hreverse
    simpa using hreverse
  · cases h

theorem Path.endsWith_of_suffix {p : Path} {ending : String} (h : p.suffix = ending) :
    Text.endsWith p.name ending = true := by
  subst h
  rw [Text.endsWith, List.isSuffixOf_iff_suffix, Path.suffix]
  split
  · rename_i stem back hcut
    split
    · exact List.nil_suffix
    · refine ⟨stem.toList, ?_⟩
      rw [Text.eq_of_cutLast hcut, String.toList_append]
      rfl
  · exact List.nil_suffix

/-! ## Files below a directory -/

namespace World

variable {w : World}

/-- What is below a directory is found by the resolved path, too. -/
theorem find?_resolve_below {base down q : Path} (hb : w.isDirectory base = true) (hd : down.root = "")
    (hn : ".." ∉ down.names) (hq : w.resolve (base.join down) = .ok q) :
    w.find? q = w.find? (base.join down) := by
  have hfind : ∃ e, w.find? base = some e := by
    cases hf : w.find? base with
    | none => simp [isDirectory, hf] at hb
    | some e => exact ⟨e, rfl⟩
  obtain ⟨e, he⟩ := hfind
  obtain ⟨stop, hwalk, -⟩ := Option.bind_eq_some_iff.mp he
  have hstart : w.Grounded [] := trivial
  obtain ⟨hg, hstop⟩ := walk_grounded hstart hwalk
  have hclimb : Path.climb (w.directory.join base).names = stop.reverse := by rw [hstop]; rfl
  have hwhole : (w.directory.join (base.join down)).names = (w.directory.join base).names ++ down.names := by
    rw [Path.join_of_root hd]
    unfold Path.join Path.isAbsolute
    split
    · rfl
    · exact (List.append_assoc _ _ _).symm
  have hup : ".." ∉ stop := by
    have := Path.not_mem_climb (w.directory.join base).names
    rwa [hclimb, List.mem_reverse] at this
  have hres := Path.isResolved_of_resolve hq
  have hjoin : w.directory.join q = q := Path.join_of_isResolved hres
  have hnames : q.names = stop.reverse ++ down.names := by
    simp only [resolve, Path.resolve] at hq
    split at hq
    · cases hq
    · cases hq
      rw [hwhole, Path.climb_append _ hn, hclimb]
  simp only [find?, hjoin, hnames, hwhole, walk_append, walk_of_grounded hg hup, hwalk]

end World

namespace ConfigFile

variable {w : World} {p q : Path} {text : List Char} {m : Entries} {v : Value} {format : Format}

/-! ## Formats and documents -/

/-- How a file is read by its name. -/
inductive ReadAs (p : Path) : Format → Prop
  | package : p.name = "package.json" → ReadAs p .package
  | json : p.name ≠ "package.json" → p.suffix = ".json" → ReadAs p .json
  | yaml : p.suffix = ".yaml" ∨ p.suffix = ".yml" ∨ p.name = ".eslintrc" → ReadAs p .yaml

/-- The document that a text holds. That of a package description is an entry of it. -/
inductive Holds (text : List Char) : Format → Value → Prop
  | package {description : Entries} {v : Value} : Json.read (String.ofList text) = .ok (.mapping description) →
      Entries.field? description "eslintConfig" = some v → Holds text .package v
  | json {v : Value} : Json.read (String.ofList text) = .ok v → Holds text .json v
  | yaml {v : Value} : Yaml.read text = .ok v → Holds text .yaml v

/-- The configuration that a document is. -/
def Configures (v : Value) (m : Entries) : Prop := v = .mapping m ∨ v = .null ∧ m = []

theorem format?_eq_some_iff : format? p = some format ↔ ReadAs p format := by
  constructor
  · intro h
    unfold format? at h
    split at h
    · rename_i hname
      cases h
      exact .package (eq_of_beq hname)
    · rename_i hname
      split at h
      · rename_i hsuffix
        cases h
        exact .json (by simpa [packageName] using hname) (eq_of_beq hsuffix)
      · split at h
        · rename_i hyaml
          cases h
          exact .yaml (by simpa [yamlSuffixes, or_assoc] using hyaml)
        · cases h
  · intro h
    unfold format?
    cases h with
    | package hname => rw [if_pos (by simp [hname, packageName])]
    | json hname hsuffix => rw [if_neg (by simpa [packageName] using hname), if_pos (by simp [hsuffix])]
    | yaml hyaml =>
      have hsuffix : p.suffix ≠ ".json" := by
        rcases hyaml with h | h | h
        · simp [h]
        · simp [h]
        · rw [Path.suffix_congr (p := ⟨"", [".eslintrc"]⟩) h]
          decide
      have hname : p.name ≠ packageName := fun h => hsuffix (Path.suffix_congr (p := ⟨"", [packageName]⟩) h)
      rw [if_neg (by simpa using hname), if_neg (by simpa using hsuffix), if_pos]
      simpa [yamlSuffixes, or_assoc] using hyaml

theorem ReadAs.congr (h : q.name = p.name) (hp : ReadAs p format) : ReadAs q format := by
  rw [← format?_eq_some_iff] at hp ⊢
  rw [format?, h, Path.suffix_congr h]
  exact hp

theorem entriesOf_eq_ok : entriesOf p v = .ok m ↔ Configures v m := by
  cases v <;> simp [entriesOf, Configures, eq_comm]

theorem readJson_eq_ok : readJson p text = .ok v ↔ Json.read (String.ofList text) = .ok v := mapError_eq_ok

theorem readYaml_eq_ok : readYaml p text = .ok v ↔ Yaml.read text = .ok v := mapError_eq_ok

/-- A text gives a configuration when the document that it holds is one. -/
theorem parse_eq_ok : parse p text = .ok m ↔ ∃ format v, ReadAs p format ∧ Holds text format v ∧ Configures v m := by
  constructor
  · intro h
    unfold parse at h
    split at h
    · rename_i hformat
      obtain ⟨v, hv, h⟩ := bind_eq_ok.mp h
      split at h
      · split at h
        · rename_i hentry
          exact ⟨_, _, format?_eq_some_iff.mp hformat, .package (readJson_eq_ok.mp hv) hentry, entriesOf_eq_ok.mp h⟩
        · cases h
      · cases h
    · rename_i hformat
      obtain ⟨v, hv, h⟩ := bind_eq_ok.mp h
      exact ⟨_, v, format?_eq_some_iff.mp hformat, .json (readJson_eq_ok.mp hv), entriesOf_eq_ok.mp h⟩
    · rename_i hformat
      obtain ⟨v, hv, h⟩ := bind_eq_ok.mp h
      exact ⟨_, v, format?_eq_some_iff.mp hformat, .yaml (readYaml_eq_ok.mp hv), entriesOf_eq_ok.mp h⟩
    · cases h
  · rintro ⟨format, v, hformat, hholds, hv⟩
    unfold parse
    rw [format?_eq_some_iff.mpr hformat]
    cases hholds with
    | package hread hentry =>
      refine bind_eq_ok.mpr ⟨_, readJson_eq_ok.mpr hread, ?_⟩
      simp only [packageKey, hentry]
      exact entriesOf_eq_ok.mpr hv
    | json hread => exact bind_eq_ok.mpr ⟨v, readJson_eq_ok.mpr hread, entriesOf_eq_ok.mpr hv⟩
    | yaml hread => exact bind_eq_ok.mpr ⟨v, readYaml_eq_ok.mpr hread, entriesOf_eq_ok.mpr hv⟩

/-- What a text is read as depends on the last name of its file only. -/
theorem parse_congr (h : q.name = p.name) (hr : parse p text = .ok m) : parse q text = .ok m := by
  obtain ⟨format, v, hformat, hv⟩ := parse_eq_ok.mp hr
  exact parse_eq_ok.mpr ⟨format, v, hformat.congr h, hv⟩

/-! ## Files -/

/-- Paths of the same last name to the same thing load the same configuration. -/
theorem load_congr (hf : w.find? q = w.find? p) (h : q.name = p.name) (hl : load w p = .ok m) :
    load w q = .ok m := by
  have hfile : w.isFile q = w.isFile p := by rw [World.isFile, World.isFile, hf]
  have hread : w.read q = w.read p := by rw [World.read, World.read, World.bytes, World.bytes, hf]
  unfold load at hl ⊢
  rw [hfile, hread]
  split at hl
  · rename_i hp
    rw [if_pos hp]
    obtain ⟨text, htext, hl⟩ := bind_eq_ok.mp hl
    exact bind_eq_ok.mpr ⟨text, htext, parse_congr h hl⟩
  · cases hl

theorem isFile_of_load (h : load w p = .ok m) : w.isFile p = true := by
  unfold load at h
  split at h
  · rename_i hf
    exact hf
  · cases h

end ConfigFile

end Cascade
