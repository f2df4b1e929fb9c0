import Mathlib.Data.List.TakeWhile
import Cascade.Proofs.World
import Cascade.Resolution

/-! # Where extended configurations are

A reference leads to a configuration that is somewhere: a set of rules stands for
itself, a configuration of a plugin is in its package, and anything else is in a
file or in a module. The identity that it has on a chain says less. A package is
known by its name alone, wherever it was found, and a plugin by its shortest name,
which two packages can have in common. -/
namespace Cascade.Resolution

/-- Where a configuration is that is extended. -/
inductive Origin where
  | rules (name : String)
  /-- A configuration of the plugin in a package. -/
  | plugin (package config : String)
  /-- A file or a module that is named by its path. -/
  | path (text : String)
  /-- A package and its file, which is the one of a configuration or of a module. A
  module that is imported by its name has none. -/
  | package (name : String) (file : Option String)
  deriving DecidableEq

namespace Origin

def identity : Origin → String
  | .rules name => name
  | .plugin name config => "plugin:" ++ Package.shorthand Package.pluginKind name ++ "/" ++ config
  | .path text => text
  | .package name _ => name

/-- Different origins that have one identity: packages of one name in different
places, and plugins of one shortest name in different packages. -/
def Confused : Origin → Origin → Prop
  | .package name file, .package name' file' => name = name' ∧ file ≠ file'
  | .plugin name config, .plugin name' config' => name ≠ name' ∧ config = config' ∧
      Package.shorthand Package.pluginKind name = Package.shorthand Package.pluginKind name'
  | _, _ => False

/-- Origins as references have them. -/
def Proper : Origin → Prop
  | .rules name => name ∈ sentinels
  | .plugin _ config => '/' ∉ config.toList
  | .path text => ∃ rest, text = "/" ++ rest
  | .package name _ => (∃ rest, name = "@" ++ rest) ∨ ∃ rest, name = "eslint-config-" ++ rest

end Origin

/-- The text of a path after resolving it, if that is possible. -/
def resolvedText (w : World) (path : Path) : String := ((w.resolve path).toOption.getD path).text

/-- The file that a package is found in, below a directory. -/
def packageOrigin (w : World) (package : String) (directory : Path) : Option Path :=
  (packageFile? w package directory).or (Module.findFile w (Package.moduleName package) directory)

/-- What a reference in a directory leads to. -/
def originOf? (w : World) (reference : String) (directory : Path) : Option Origin :=
  if sentinels.contains reference then some (.rules reference)
  else if Text.startsWith reference "plugin:" then do
    let (name, config) ← Text.cutLast '/' (Text.drop "plugin:".length reference)
    let package ← (Package.normalize Package.pluginKind name).toOption
    return .plugin package config
  else if isPathReference reference then do
    let path ← (w.resolve (directory.child reference)).toOption
    return .path path.text
  else do
    let package ← (Package.normalize Package.configKind reference).toOption
    return .package package ((packageOrigin w package directory).map (resolvedText w))

/-! ## What identities tell apart -/

theorem slash_text {path : Path} (hp : path.IsResolved) : ∃ rest, path.text = "/" ++ rest := by
  refine ⟨String.intercalate "/" path.names, ?_⟩
  rw [Path.text, hp.1, if_neg (by simp)]

theorem not_mem_of_cutLast {sep : Char} {s front back : String}
    (h : Text.cutLast sep s = some (front, back)) : sep ∉ back.toList := by
  simp only [Text.cutLast] at h
  split at h
  · cases h
    rw [String.toList_ofList, List.mem_reverse]
    intro hm
    have := List.mem_takeWhile_imp hm
    simp at this
  · cases h

theorem startsWith_cutFirst {s front back : String} {c sep : Char} (hc : c ≠ sep)
    (hs : ∃ rest, s = String.singleton c ++ rest) (h : Text.cutFirst sep s = some (front, back)) :
    ∃ rest, front = String.singleton c ++ rest := by
  obtain ⟨rest, rfl⟩ := hs
  simp only [Text.cutFirst] at h
  split at h
  · cases h
    refine ⟨String.ofList (rest.toList.takeWhile (· != sep)), String.toList_inj.mp ?_⟩
    simp [hc]
  · cases h

theorem normalize_proper {name package : String}
    (h : Package.normalize Package.configKind name = .ok package) :
    (∃ rest, package = "@" ++ rest) ∨ ∃ rest, package = "eslint-config-" ++ rest := by
  have hkind : Package.configKind ++ "-" = "eslint-config-" := by decide
  simp only [Package.normalize, hkind] at h
  generalize Text.swap '\\' '/' name = name at h
  split at h
  · rename_i hat
    have hname := Text.startsWith_iff.mp hat
    left
    split at h
    · rename_i scope rest hcut
      cases h
      obtain ⟨more, rfl⟩ := startsWith_cutFirst (c := '@') (by decide) hname hcut
      have hscope : ∀ ending, ∃ rest, String.singleton '@' ++ more ++ ending = "@" ++ rest :=
        fun ending => ⟨more ++ ending, String.append_assoc⟩
      unfold Package.normalizeScoped
      dsimp only
      split
      · simp only [String.append_assoc] at hscope ⊢
        exact hscope _
      · split
        · simp only [String.append_assoc] at hscope ⊢
          exact hscope _
        · simp only [String.append_assoc] at hscope ⊢
          exact hscope _
    · obtain ⟨after, rfl⟩ := hname
      split at h
      · cases h
      · cases h
        exact ⟨after ++ "/" ++ Package.configKind, by simp only [String.append_assoc]⟩
  · right
    split at h
    · rename_i hs
      cases h
      exact Text.startsWith_iff.mp hs
    · cases h
      exact ⟨_, rfl⟩

theorem originOf?_proper {w : World} {reference : String} {directory : Path} {origin : Origin}
    (h : originOf? w reference directory = some origin) : origin.Proper := by
  unfold originOf? at h
  split at h
  · rename_i hs
    cases h
    exact List.contains_iff_mem.mp hs
  split at h
  · obtain ⟨⟨name, config⟩, hcut, h⟩ := Option.bind_eq_some_iff.mp h
    obtain ⟨package, -, h⟩ := Option.bind_eq_some_iff.mp h
    cases h
    exact not_mem_of_cutLast hcut
  split at h
  · obtain ⟨path, hp, h⟩ := Option.bind_eq_some_iff.mp h
    cases h
    cases hr : w.resolve (directory.child reference) with
    | error e => rw [hr] at hp; cases hp
    | ok q =>
      rw [hr] at hp
      cases hp
      exact slash_text (Path.isResolved_of_resolve hr)
  · obtain ⟨package, hn, h⟩ := Option.bind_eq_some_iff.mp h
    cases h
    cases hp : Package.normalize Package.configKind reference with
    | error e => rw [hp] at hn; cases hn
    | ok q =>
      rw [hp] at hn
      cases hn
      exact normalize_proper hp

theorem eq_of_append_slash {a a' b b' : String} (hb : '/' ∉ b.toList) (hb' : '/' ∉ b'.toList)
    (h : a ++ "/" ++ b = a' ++ "/" ++ b') : a = a' ∧ b = b' := by
  have hl := congrArg (List.reverse ∘ String.toList) h
  simp only [Function.comp_apply, String.toList_append, List.reverse_append] at hl
  have hslash : "/".toList.reverse = ['/'] := by decide
  rw [hslash] at hl
  have htake : ∀ l m : List Char, '/' ∉ l → (l.reverse ++ (['/'] ++ m)).takeWhile (· != '/') = l.reverse := by
    intro l m hm
    rw [List.takeWhile_append_of_pos fun c hc => ?_]
    · simp
    · simp only [bne_iff_ne]
      rintro rfl
      exact hm (List.mem_reverse.mp hc)
  have hback := congrArg (List.takeWhile (· != '/')) hl
  rw [htake _ _ hb, htake _ _ hb'] at hback
  rw [hback] at hl
  have hfront := List.append_cancel_left (List.append_cancel_left hl)
  exact ⟨String.toList_inj.mp (List.reverse_inj.mp hfront), String.toList_inj.mp (List.reverse_inj.mp hback)⟩

/-- How the identity of an origin begins, by which the kinds of origins differ. -/
def Origin.Begins : Origin → List Char → Prop
  | .rules _, l => ∃ rest, l = 'e' :: 's' :: 'l' :: 'i' :: 'n' :: 't' :: ':' :: rest
  | .plugin _ _, l => ∃ rest, l = 'p' :: rest
  | .path _, l => ∃ rest, l = '/' :: rest
  | .package _ _, l => (∃ rest, l = '@' :: rest) ∨
      ∃ rest, l = 'e' :: 's' :: 'l' :: 'i' :: 'n' :: 't' :: '-' :: rest

theorem Origin.Proper.begins {a : Origin} (h : a.Proper) : a.Begins a.identity.toList := by
  cases a with
  | rules name =>
    simp only [Proper, sentinels, List.mem_cons, List.not_mem_nil, or_false] at h
    rcases h with rfl | rfl <;> exact ⟨_, rfl⟩
  | plugin name config => exact ⟨_, by simp only [identity, String.append_assoc, String.toList_append]; rfl⟩
  | path text =>
    obtain ⟨rest, rfl⟩ := h
    exact ⟨_, String.toList_append⟩
  | package name file =>
    rcases h with ⟨rest, rfl⟩ | ⟨rest, rfl⟩
    · exact .inl ⟨_, String.toList_append⟩
    · exact .inr ⟨_, String.toList_append⟩

/-- Origins of one identity are the same, or they are confused. -/
theorem Origin.eq_or_confused {a b : Origin} (ha : a.Proper) (hb : b.Proper)
    (h : a.identity = b.identity) : a = b ∨ a.Confused b := by
  have hbegin := ha.begins
  have hbegin' := hb.begins
  rw [← h] at hbegin'
  cases a with
  | rules name =>
    cases b with
    | rules name' => exact .inl (congrArg rules h)
    | _ => simp only [Begins] at hbegin hbegin'; grind
  | plugin name config =>
    cases b with
    | plugin name' config' =>
      obtain ⟨hname, rfl⟩ := eq_of_append_slash ha hb h
      by_cases heq : name = name'
      · exact .inl (by rw [heq])
      · have hl := congrArg String.toList hname
        simp only [String.toList_append] at hl
        exact .inr ⟨heq, rfl, String.toList_inj.mp (List.append_cancel_left hl)⟩
    | _ => simp only [Begins] at hbegin hbegin'; grind
  | path text =>
    cases b with
    | path text' => exact .inl (congrArg path h)
    | _ => simp only [Begins] at hbegin hbegin'; grind
  | package name file =>
    cases b with
    | package name' file' =>
      by_cases heq : file = file'
      · exact .inl (by rw [heq, show name = name' from h])
      · exact .inr ⟨h, heq⟩
    | _ => simp only [Begins] at hbegin hbegin'; grind

end Cascade.Resolution
