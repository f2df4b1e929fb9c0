import Cascade.Package
import Cascade.Proofs.Result
import Cascade.Proofs.Text

/-! # Modules of packages

The name of a package's module is made from the package one character at a time, after
the signs of a scope. It is no name of a module where no scope follows them: it is
empty then, or it begins with a point. -/
namespace Cascade

/-- What separates texts is changed with them. -/
theorem map_intersperse {α β : Type} (f : α → β) (sep : α) (l : List α) :
    (l.intersperse sep).map f = (l.map f).intersperse (f sep) := by
  induction l with
  | nil => rfl
  | cons first rest ih =>
    cases rest with
    | nil => rfl
    | cons second rest =>
      rw [List.map_cons] at ih
      simp [ih]

/-- A text that begins with a single character. -/
theorem Text.startsWith_iff_head? {start : String} {c : Char} (hc : start.toList = [c]) (s : String) :
    startsWith s start = true ↔ s.toList.head? = some c := by
  rw [startsWith, hc]
  cases s.toList with
  | nil => simp
  | cons first rest =>
    rw [List.head?_cons, Option.some_inj, List.isPrefixOf_cons_cons, List.isPrefixOf_nil_left, Bool.and_true, beq_iff_eq]
    exact eq_comm

namespace Package

/-! ## Characters -/

/-- The character of a module's name for one of a package. -/
def moduleChar (c : Char) : Char :=
  if c == '/' then '.' else if c == '-' || c == '.' then '_' else c

theorem moduleChar_eq_point {c : Char} : moduleChar c = '.' ↔ c = '/' := by
  unfold moduleChar
  split
  · rename_i h
    simpa using h
  · rename_i h
    have hc : c ≠ '/' := by simpa using h
    split
    · simpa using hc
    · rename_i hp
      have hp : c ≠ '.' := fun heq => hp (by simp [heq])
      simp [hp, hc]

theorem modulePart_toList {part : String} (h : '/' ∉ part.toList) :
    (modulePart part).toList = part.toList.map moduleChar := by
  rw [modulePart, Text.swap, Text.swap, String.toList_ofList, String.toList_ofList, List.map_map]
  refine List.map_congr_left fun c hc => ?_
  have hslash : c ≠ '/' := fun heq => h (heq ▸ hc)
  by_cases hdash : c = '-'
  · subst hdash
    rfl
  · simp [moduleChar, hslash, hdash]

theorem moduleName_toList (package : String) :
    (moduleName package).toList = (package.toList.dropWhile (· == '@')).map moduleChar := by
  let parts := (package.toList.dropWhile (· == '@')).splitOn '/'
  have hparts : ((parts.map String.ofList).map modulePart).map String.toList = parts.map (List.map moduleChar) := by
    rw [List.map_map, List.map_map]
    refine List.map_congr_left fun part hp => ?_
    have hslash : '/' ∉ (String.ofList part).toList := by
      rw [String.toList_ofList]
      exact Text.not_mem_of_mem_splitOn hp
    show (modulePart (String.ofList part)).toList = _
    rw [modulePart_toList hslash, String.toList_ofList]
  have hfields : Text.fields '/' (Text.dropLeading '@' package) = parts.map String.ofList := by
    rw [Text.fields, Text.dropLeading, String.toList_ofList]
  have hpoint : ".".toList = ['/'].map moduleChar := rfl
  rw [moduleName, hfields, String.toList_intercalate, hparts, hpoint, List.intercalate,
    ← map_intersperse (List.map moduleChar) ['/'], ← List.map_flatten]
  exact congrArg _ (List.intercalate_splitOn '/')

/-! ## Scopes -/

/-- Whether a name has the sign of a scope without a scope: nothing but signs stands
before its first slash. -/
def lacksScope (name : String) : Bool :=
  Text.startsWith name "@" && (name.toList.takeWhile (· != '/')).all (· == '@')

theorem takeWhile_all_iff (l : List Char) : (l.takeWhile (· != '/')).all (· == '@') = true ↔
    ∀ c ∈ (l.dropWhile (· == '@')).head?, c = '/' := by
  induction l with
  | nil => simp
  | cons c rest ih =>
    by_cases hsign : c = '@'
    · subst hsign
      simpa using ih
    · by_cases hslash : c = '/'
      · simp [hslash]
      · simp [hsign, hslash]

/-- What is not empty and has no slash in front lacks a scope just when nothing or a
slash follows the signs in front. -/
theorem lacksScope_eq {name : String} (hn : name ≠ "") (hs : Text.startsWith name "/" = false) :
    lacksScope name = true ↔ ∀ c ∈ (name.toList.dropWhile (· == '@')).head?, c = '/' := by
  rw [lacksScope, Bool.and_eq_true, takeWhile_all_iff]
  have hchars : name.toList ≠ [] := fun h => hn (by rw [← String.toList_inj, h]; rfl)
  obtain ⟨first, rest, hname⟩ := List.exists_cons_of_ne_nil hchars
  rw [Text.startsWith, hname] at hs ⊢
  by_cases hsign : first = '@'
  · subst hsign
    simp
  · have hslash : first ≠ '/' := fun heq => by
      rw [heq] at hs
      simp at hs
    simp [hsign, hslash]

end Package

/-- What the import of a module fails with, other than its absence, that has no name. -/
def Module.nameFault? (name : String) : Option Fault :=
  if name == "" then some .badValue else if Text.startsWith name "." then some .unsupported else none

namespace Package

/-- What the import of a package's module fails with that lacks a scope. -/
def scopeFault? (package : String) : Option Fault :=
  if lacksScope package then some (if package.toList.contains '/' then .unsupported else .badValue) else none

theorem nameFault?_moduleName {package : String} (hn : package ≠ "") (hs : Text.startsWith package "/" = false) :
    Module.nameFault? (moduleName package) = scopeFault? package := by
  have hlacks := lacksScope_eq hn hs
  have hname := moduleName_toList package
  have hsplit : package.toList.takeWhile (· == '@') ++ package.toList.dropWhile (· == '@') = package.toList :=
    List.takeWhile_append_dropWhile
  rw [Module.nameFault?, scopeFault?]
  -- what is behind the signs in front becomes the module name, where a slash becomes a point
  cases hrest : package.toList.dropWhile (· == '@') with
  | nil =>
    rw [hrest] at hlacks hname hsplit
    have hempty : moduleName package = "" := by
      rw [← String.toList_inj, hname]
      rfl
    have hslash : '/' ∉ package.toList := by
      intro hmem
      rw [← hsplit, List.append_nil] at hmem
      have hsign := List.all_eq_true.mp List.all_takeWhile '/' hmem
      cases hsign
    simp [hempty, hlacks.mpr (by simp), hslash]
  | cons c rest =>
    rw [hrest] at hlacks hname hsplit
    have hne : moduleName package ≠ "" := by
      intro hempty
      rw [hempty] at hname
      cases hname
    have hpoint : Text.startsWith (moduleName package) "." = true ↔ c = '/' := by
      rw [← moduleChar_eq_point, Text.startsWith_iff_head? rfl, hname]
      exact Option.some_inj
    by_cases hslash : c = '/'
    · have hmem : '/' ∈ package.toList := by
        rw [← hsplit, hslash]
        simp
      simp [hne, hpoint.mpr hslash, hlacks.mpr (by simp [hslash]), hmem]
    · have hscope : lacksScope package = false := by
        rw [Bool.eq_false_iff]
        intro h
        exact hslash (hlacks.mp h c rfl)
      have hplain : Text.startsWith (moduleName package) "." = false := by
        rw [Bool.eq_false_iff]
        exact fun h => hslash (hpoint.mp h)
      simp [hne, hplain, hscope]

/-! ## Names of packages -/

/-- What the name of a package fails with that lacks a scope. -/
def nameFault? (name : String) : Option Fault :=
  let name := Text.swap '\\' '/' name
  if name == "@" then some .noItem else if lacksScope name then some .unsupported else none

theorem normalize_eq_error {kind name : String} {f : Fault} (h : normalize kind name = .error f) :
    nameFault? name = some f := by
  unfold normalize at h
  unfold nameFault?
  dsimp only at h ⊢
  split at h
  · split at h
    · cases h
    · split at h
      · rename_i hsign
        cases h
        rw [if_pos hsign]
      · cases h
  · split at h <;> cases h

/-- The part of a name in front of its first slash. -/
def scopeOf (name : String) : String := String.ofList (name.toList.takeWhile (· != '/'))

theorem not_mem_scopeOf (name : String) : '/' ∉ (scopeOf name).toList := by
  rw [scopeOf, String.toList_ofList]
  intro hmem
  have hne := List.all_eq_true.mp List.all_takeWhile '/' hmem
  cases hne

theorem startsWith_scopeOf {name : String} (h : Text.startsWith name "@" = true) :
    Text.startsWith (scopeOf name) "@" = true := by
  rw [Text.startsWith_iff_head? rfl] at h ⊢
  obtain ⟨rest, hrest⟩ := List.head?_eq_some_iff.mp h
  rw [scopeOf, hrest, String.toList_ofList]
  rfl

theorem scopeOf_append {scope : String} (hs : '/' ∉ scope.toList) (rest : String) :
    scopeOf (scope ++ rest) = scope ++ scopeOf rest := by
  rw [scopeOf, scopeOf, String.toList_append, List.takeWhile_append_of_pos (Text.bne_of_not_mem hs), String.ofList_append,
    String.ofList_toList]

theorem scopeOf_of_not_mem {name : String} (h : '/' ∉ name.toList) : scopeOf name = name := by
  have hscope := scopeOf_append h ""
  rwa [String.append_empty, show scopeOf "" = "" from rfl, String.append_empty] at hscope

theorem scopeOf_slash {scope : String} (hs : '/' ∉ scope.toList) (rest : String) : scopeOf (scope ++ "/" ++ rest) = scope := by
  have hempty : scopeOf ("/" ++ rest) = "" := by
    rw [scopeOf, String.toList_append]
    rfl
  rw [String.append_assoc, scopeOf_append hs, hempty, String.append_empty]

theorem lacksScope_scopeOf (name : String) :
    lacksScope name = (Text.startsWith name "@" && (scopeOf name).toList.all (· == '@')) := by
  rw [lacksScope, scopeOf, String.toList_ofList]

/-- A scope with a name behind it. -/
theorem scopeFault?_append {scope : String} (hslash : '/' ∉ scope.toList)
    (hsign : Text.startsWith scope "@" = true) (after : String) :
    Text.startsWith (scope ++ "/" ++ after) "@" = true ∧ scopeFault? (scope ++ "/" ++ after) =
      if scope.toList.all (· == '@') then some .unsupported else none := by
  have hstart : Text.startsWith (scope ++ "/" ++ after) "@" = true := by
    rw [String.append_assoc]
    exact Text.startsWith_append_of hsign _
  have hcontains : (scope ++ "/" ++ after).toList.contains '/' = true := by simp
  refine ⟨hstart, ?_⟩
  rw [scopeFault?, lacksScope_scopeOf, hstart, scopeOf_slash hslash, hcontains, Bool.true_and, if_pos rfl]

theorem normalizeScoped_eq (kind scope rest : String) :
    ∃ after, normalizeScoped kind scope rest = scope ++ "/" ++ after := by
  unfold normalizeScoped
  dsimp only
  split
  · exact ⟨_, String.append_assoc⟩
  · split
    · exact ⟨rest, rfl⟩
    · exact ⟨kind ++ "-" ++ rest, by simp only [String.append_assoc]⟩

/-- The package of a scoped name has its scope. -/
theorem normalize_scoped {kind name package : String}
    (hsign : Text.startsWith (Text.swap '\\' '/' name) "@" = true) (h : normalize kind name = .ok package) :
    Text.swap '\\' '/' name ≠ "@" ∧
      ∃ after, package = scopeOf (Text.swap '\\' '/' name) ++ "/" ++ after := by
  unfold normalize at h
  dsimp only at h
  generalize Text.swap '\\' '/' name = n at *
  rw [if_pos hsign] at h
  by_cases hslash : '/' ∈ n.toList
  · obtain ⟨scope, own, hscope, rfl⟩ := Text.exists_cut hslash
    rw [Text.cutFirst_append hscope] at h
    obtain ⟨after, hafter⟩ := normalizeScoped_eq kind scope own
    cases h
    refine ⟨fun heq => ?_, after, by rw [scopeOf_slash hscope, hafter]⟩
    rw [heq] at hslash
    exact absurd hslash (by decide)
  · by_cases hne : n = "@"
    · subst hne
      cases h
    · simp only [Text.cutFirst_of_not_mem hslash, beq_iff_eq, if_neg hne, Except.ok.injEq] at h
      exact ⟨hne, kind, by rw [scopeOf_of_not_mem hslash, h]⟩

theorem pluginKind_eq : ∃ rest, pluginKind.toList = 'e' :: rest := ⟨"slint-plugin".toList, by decide⟩

theorem configKind_eq : ∃ rest, configKind.toList = 'e' :: rest := ⟨"slint-config".toList, by decide⟩

/-- A package has a name that its module fails with as the package's does. -/
theorem normalize_scopeFault? {kind name package : String} (hkind : ∃ rest, kind.toList = 'e' :: rest)
    (h : normalize kind name = .ok package) :
    package ≠ "" ∧ Text.startsWith package "/" = false ∧ scopeFault? package = nameFault? name := by
  by_cases hsign : Text.startsWith (Text.swap '\\' '/' name) "@" = true
  · obtain ⟨hne, after, rfl⟩ := normalize_scoped hsign h
    obtain ⟨hstart, hfault⟩ := scopeFault?_append (not_mem_scopeOf _) (startsWith_scopeOf hsign) after
    refine ⟨?_, ?_, ?_⟩
    · intro hempty
      rw [hempty] at hstart
      cases hstart
    · rw [Bool.eq_false_iff, Ne, Text.startsWith_iff_head? rfl, (Text.startsWith_iff_head? rfl _).mp hstart]
      decide
    · rw [hfault, nameFault?, lacksScope_scopeOf, hsign]
      simp [hne]
  -- without a scope the package begins with the letters of its kind
  · obtain ⟨letters, hletters⟩ := hkind
    have hhead : package.toList.head? = some 'e' := by
      unfold normalize at h
      dsimp only at h
      rw [if_neg hsign] at h
      split at h
      · rename_i hpackage
        cases h
        obtain ⟨rest, hrest⟩ := Text.startsWith_iff.mp hpackage
        rw [hrest, String.toList_append, String.toList_append, hletters]
        rfl
      · cases h
        rw [String.toList_append, String.toList_append, hletters]
        rfl
    have hscope : Text.startsWith package "@" = false := by
      rw [Bool.eq_false_iff, Ne, Text.startsWith_iff_head? rfl, hhead]
      decide
    have hname : Text.swap '\\' '/' name ≠ "@" := by
      intro heq
      rw [heq] at hsign
      exact hsign rfl
    refine ⟨?_, ?_, ?_⟩
    · rintro rfl
      cases hhead
    · rw [Bool.eq_false_iff, Ne, Text.startsWith_iff_head? rfl, hhead]
      decide
    · simp [scopeFault?, nameFault?, lacksScope, hscope, hname, hsign]

end Package

end Cascade
