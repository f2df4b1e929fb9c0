import Cascade.Proofs.Conversion.Parts
import Cascade.Proofs.FileOutcome
import Mathlib.Data.List.Basic

/-! # Finding a configuration file

The configuration file of a directory is the first candidate that is there. A package
description counts if the key of a configuration is found in it, which is looked for in
lists and texts, too, while only a mapping can be loaded. So finding and loading disagree
on such documents, and on bytes that are no text, and agree on everything else. -/
namespace Cascade

namespace Text

theorem hasInfix_iff {needle l : List Char} : hasInfix needle l = true ↔ needle <:+: l := by
  induction l with
  | nil => simp [hasInfix]
  | cons c rest ih => rw [hasInfix, Bool.or_eq_true, List.isPrefixOf_iff_prefix, ih, List.infix_cons_iff]

theorem contains_iff {s needle : String} : contains s needle = true ↔ ∃ before after, s = before ++ needle ++ after := by
  rw [contains, hasInfix_iff]
  constructor
  · rintro ⟨before, after, h⟩
    refine ⟨String.ofList before, String.ofList after, String.toList_inj.mp ?_⟩
    rw [String.toList_append, String.toList_append, String.toList_ofList, String.toList_ofList, h]
  · rintro ⟨before, after, rfl⟩
    exact ⟨before.toList, after.toList, by rw [String.toList_append, String.toList_append]⟩

end Text

namespace ConfigFile

variable {w : World} {directory p : Path} {name : String} {names : List String} {text : List Char} {v : Value}

/-! ## Candidates that count -/

/-- A document in which the key of a configuration is found: as a key, an item or a part of a text. -/
inductive Mentions : Value → Prop
  | key {m : Entries} {v : Value} : Entries.field? m "eslintConfig" = some v → Mentions (.mapping m)
  | item {items : List Value} : Value.str "eslintConfig" ∈ items → Mentions (.list items)
  | part (before after : String) : Mentions (.str (before ++ "eslintConfig" ++ after))

/-- The text of a document in which the key is found. -/
def Describes (text : List Char) : Prop := ∃ v, Json.read (String.ofList text) = .ok v ∧ Mentions v

theorem describesConfig_iff : describesConfig text = true ↔ Describes text := by
  unfold describesConfig
  constructor
  · intro h
    split at h
    · rename_i hread
      obtain ⟨v, hv⟩ := Entries.hasField_iff.mp h
      exact ⟨_, hread, .key hv⟩
    · rename_i hread
      obtain ⟨v, hv, hsame⟩ := List.any_eq_true.mp h
      rw [Value.same_str] at hsame
      exact ⟨_, hread, .item (hsame ▸ hv)⟩
    · rename_i hread
      obtain ⟨before, after, rfl⟩ := Text.contains_iff.mp h
      exact ⟨_, hread, .part before after⟩
    · cases h
  · rintro ⟨v, hread, hv⟩
    rw [hread]
    cases hv with
    | key hfield => exact Entries.hasField_iff.mpr ⟨_, hfield⟩
    | item hmem => exact List.any_eq_true.mpr ⟨_, hmem, (Value.same_str _ _).mpr rfl⟩
    | part before after => exact Text.contains_iff.mpr ⟨before, after, rfl⟩

/-- A candidate that counts as the configuration file of a directory. -/
structure Counts (w : World) (directory : Path) (name : String) : Prop where
  isFile : w.isFile (directory.child name) = true
  describes : name = "package.json" → ∃ text, w.read (directory.child name) = .ok text ∧ Describes text

/-- What is found out about one candidate. -/
def judged (w : World) (directory : Path) (name : String) : Except Fault Bool :=
  if !w.isFile (directory.child name) then .ok false
  else if name != packageName then .ok true
  else (w.read (directory.child name)).map describesConfig

theorem judged_eq_true : judged w directory name = .ok true ↔ Counts w directory name := by
  unfold judged
  by_cases hf : w.isFile (directory.child name) = true
  · by_cases hn : name = packageName
    · subst hn
      simp only [hf, Bool.not_true, Bool.false_eq_true, if_false, bne_self_eq_false, map_eq_ok, describesConfig_iff]
      exact ⟨fun h => ⟨hf, fun _ => h⟩, fun h => h.describes rfl⟩
    · simp only [hf, Bool.not_true, Bool.false_eq_true, if_false, bne_iff_ne.mpr hn, if_true, true_iff]
      exact ⟨hf, fun heq => absurd heq hn⟩
  · simp only [hf, Bool.not_false, if_true, Except.ok.injEq, Bool.false_eq_true, false_iff]
    exact fun h => hf h.isFile

/-- A candidate is passed over when it is no file, or a package description without the key. -/
theorem judged_eq_false : judged w directory name = .ok false ↔ (w.isFile (directory.child name) = true →
    name = packageName ∧ ∃ text, w.read (directory.child name) = .ok text ∧ ¬ Describes text) := by
  unfold judged
  by_cases hf : w.isFile (directory.child name) = true
  · by_cases hn : name = packageName
    · subst hn
      simp [hf, map_eq_ok, ← describesConfig_iff]
    · simp [hf, hn]
  · simp [hf]

theorem judged_eq_error {f : Fault} : judged w directory name = .error f ↔ f = .notUtf8 ∧
    w.isFile (directory.child name) = true ∧ name = packageName ∧ w.decoded? (directory.child name) = none := by
  unfold judged
  by_cases hf : w.isFile (directory.child name) = true
  · by_cases hn : name = packageName
    · subst hn
      rw [World.read_eq]
      cases hd : w.decoded? (directory.child packageName) <;> simp [hf, eq_comm]
    · simp [hf, hn]
  · simp [hf]

/-! ## The first one -/

theorem findAmong_cons (w : World) (directory : Path) (name : String) (rest : List String) :
    findAmong w directory (name :: rest) = judged w directory name >>= fun counts =>
      if counts then .ok (some (directory.child name)) else findAmong w directory rest := by
  rw [findAmong, judged]
  by_cases hf : w.isFile (directory.child name) = true
  · by_cases hn : name = packageName
    · subst hn
      cases hr : w.read (directory.child packageName) <;> simp [hf]
    · simp [hf, hn]
  · simp [hf]

/-- Nothing depends on candidates that are passed over. -/
theorem findAmong_passed {before : List String} (h : ∀ n ∈ before, judged w directory n = .ok false)
    (rest : List String) : findAmong w directory (before ++ rest) = findAmong w directory rest := by
  induction before with
  | nil => rfl
  | cons name before ih =>
    obtain ⟨hname, hbefore⟩ := List.forall_mem_cons.mp h
    rw [List.cons_append, findAmong_cons, hname]
    exact ih hbefore

/-- A search goes as far as the first candidate that is not passed over. -/
theorem findAmong_cases (w : World) (directory : Path) (names : List String) :
    (∀ n ∈ names, judged w directory n = .ok false) ∨ ∃ before name after, names = before ++ name :: after ∧
      (∀ n ∈ before, judged w directory n = .ok false) ∧ judged w directory name ≠ .ok false := by
  induction names with
  | nil => exact .inl (by simp)
  | cons name rest ih =>
    by_cases hj : judged w directory name = .ok false
    · rcases ih with hall | ⟨before, found, after, rfl, hbefore, hfound⟩
      · exact .inl (List.forall_mem_cons.mpr ⟨hj, hall⟩)
      · exact .inr ⟨name :: before, found, after, rfl, List.forall_mem_cons.mpr ⟨hj, hbefore⟩, hfound⟩
    · exact .inr ⟨[], name, rest, rfl, by simp, hj⟩

/-- All candidates before the last one are files of configurations by their names. -/
theorem ne_packageName {before after : List String} (h : candidates = before ++ name :: after) :
    ∀ n ∈ before, n ≠ packageName := by
  have hdropped : candidates.dropLast = before ++ (name :: after).dropLast := by
    rw [h, List.dropLast_append_of_ne_nil (by simp)]
  have hnames : ∀ n ∈ candidates.dropLast, n ≠ packageName := by decide
  rw [hdropped] at hnames
  exact fun n hn => hnames n (List.mem_append_left _ hn)

/-- The package description is the last candidate. -/
theorem after_packageName {before after : List String} (h : candidates = before ++ packageName :: after) : after = [] := by
  have hsplit : candidates.dropLast ++ packageName :: [] = before ++ packageName :: after := h
  exact (((List.append_cons_inj_of_notMem (by decide) (by simp)).mp hsplit).2.2).symm

/-! ## Loading what is found -/

theorem entriesOf_keeps (p : Path) (v : Value) : entriesOf p v ≠ .error (.problem (.noConfigKey p)) := by
  unfold entriesOf
  split <;> simp

theorem parse_of_holds (hp : p.name = "package.json") (hv : Holds text .package v) : parse p text = entriesOf p v := by
  unfold parse
  rw [format?_eq_some_iff.mpr (.package hp)]
  cases hv with
  | package hread hentry =>
    simp only [readJson_eq_ok.mpr hread, ok_bind, packageKey, hentry]

/-- Only a package description lacks the key of a configuration. -/
theorem name_of_noConfigKey (h : parse p text = .error (.problem (.noConfigKey p))) : p.name = "package.json" := by
  have hdocument : ∀ read : Except Failure Value, read ≠ .error (.problem (.noConfigKey p)) →
      read >>= entriesOf p ≠ .error (.problem (.noConfigKey p)) := by
    rintro (e | v) hread h
    · cases h
      exact hread rfl
    · exact entriesOf_keeps p v h
  unfold parse at h
  split at h
  · rename_i hformat
    cases format?_eq_some_iff.mp hformat
    assumption
  · refine absurd h (hdocument _ ?_)
    unfold readJson
    cases Json.read (String.ofList text) <;> simp
  · refine absurd h (hdocument _ ?_)
    unfold readYaml
    cases Yaml.read text with
    | ok v => simp
    | error refusal => cases refusal <;> simp
  · cases h

/-- A document in which the key is found is refused when it is no mapping. -/
theorem parse_mentioned (hread : Json.read (String.ofList text) = .ok v) (hv : Mentions v) :
    parse p text = .error (.problem (.noConfigKey p)) ↔
      p.name = "package.json" ∧ ((∃ items, v = .list items) ∨ ∃ s, v = .str s) := by
  refine ⟨fun h => ⟨name_of_noConfigKey h, ?_⟩, fun ⟨hp, hno⟩ => ?_⟩
  · cases hv with
    | key hfield =>
      rw [parse_of_holds (name_of_noConfigKey h) (.package hread hfield)] at h
      exact absurd h (entriesOf_keeps p _)
    | item _ => exact .inl ⟨_, rfl⟩
    | part _ _ => exact .inr ⟨_, rfl⟩
  · unfold parse
    rw [format?_eq_some_iff.mpr (.package hp)]
    simp only [readJson_eq_ok.mpr hread, ok_bind]
    rcases hno with ⟨items, rfl⟩ | ⟨s, rfl⟩ <;> rfl

theorem load_of_read (h : w.isFile p = true) (hr : w.read p = .ok text) : load w p = parse p text := by
  rw [load, if_pos h, hr]
  rfl

/-! ## What comes of a search -/

theorem name_child {name : String} (h : name ∈ candidates) (directory : Path) : (directory.child name).name = name := by
  have hfile : ∀ n ∈ candidates, Path.ofString n = ⟨"", [n]⟩ := by decide
  rw [Path.child, hfile name h, Path.name_join rfl (by simp)]
  rfl

/-- The package description is the only candidate that is there. -/
def OnlyDescribed (w : World) (directory : Path) : Prop :=
  ∀ n ∈ candidates, w.isFile (directory.child n) = true ↔ n = "package.json"

theorem find_of_passed {before after : List String} (h : candidates = before ++ name :: after)
    (hb : ∀ n ∈ before, judged w directory n = .ok false) :
    find w directory = judged w directory name >>= fun counts =>
      if counts then .ok (some (directory.child name)) else findAmong w directory after := by
  rw [find, h, findAmong_passed hb, findAmong_cons]

theorem find_of_onlyDescribed (h : OnlyDescribed w directory) :
    find w directory = judged w directory packageName >>= fun counts =>
      if counts then .ok (some (directory.child packageName)) else .ok none := by
  have hsplit : candidates = candidates.dropLast ++ packageName :: [] := rfl
  refine find_of_passed hsplit fun n hn => judged_eq_false.mpr fun hf => ?_
  exact absurd ((h n (List.dropLast_subset _ hn)).mp hf) (ne_packageName hsplit n hn)

theorem find_eq_some : find w directory = .ok (some p) ↔ ∃ before name after, candidates = before ++ name :: after ∧
    p = directory.child name ∧ Counts w directory name ∧ ∀ n ∈ before, w.isFile (directory.child n) = false := by
  constructor
  · intro h
    rcases findAmong_cases w directory candidates with hall | ⟨before, name, after, heq, hbefore, hname⟩
    · rw [find, ← List.append_nil candidates, findAmong_passed hall] at h
      cases h
    · rw [find_of_passed heq hbefore] at h
      obtain ⟨counts, hcounts, h⟩ := bind_eq_ok.mp h
      cases counts with
      | false => exact absurd hcounts hname
      | true =>
        cases h
        refine ⟨before, name, after, heq, rfl, judged_eq_true.mp hcounts, fun n hn => ?_⟩
        refine Bool.eq_false_iff.mpr fun hf => ?_
        exact ne_packageName heq n hn (judged_eq_false.mp (hbefore n hn) hf).1
  · rintro ⟨before, name, after, heq, rfl, hcounts, hbefore⟩
    rw [find_of_passed heq fun n hn => judged_eq_false.mpr fun hf => absurd hf (by simp [hbefore n hn]),
      judged_eq_true.mpr hcounts]
    rfl

theorem find_eq_none : find w directory = .ok none ↔ ∀ n ∈ candidates, judged w directory n = .ok false := by
  constructor
  · intro h
    rcases findAmong_cases w directory candidates with hall | ⟨before, name, after, heq, hbefore, hname⟩
    · exact hall
    · rw [find_of_passed heq hbefore] at h
      obtain ⟨counts, hcounts, h⟩ := bind_eq_ok.mp h
      cases counts with
      | false => exact absurd hcounts hname
      | true => cases h
  · intro hall
    rw [find, ← List.append_nil candidates, findAmong_passed hall]
    rfl

theorem find_eq_error {f : Fault} : find w directory = .error f ↔
    f = .notUtf8 ∧ OnlyDescribed w directory ∧ w.decoded? (directory.child packageName) = none := by
  constructor
  · intro h
    rcases findAmong_cases w directory candidates with hall | ⟨before, name, after, heq, hbefore, hname⟩
    · rw [find_eq_none.mpr hall] at h
      cases h
    · rw [find_of_passed heq hbefore] at h
      cases hj : judged w directory name with
      | ok counts =>
        cases counts with
        | false => exact absurd hj hname
        | true =>
          rw [hj] at h
          cases h
      | error f' =>
        rw [hj] at h
        cases h
        obtain ⟨rfl, hf, rfl, hd⟩ := judged_eq_error.mp hj
        refine ⟨rfl, fun n hn => ⟨fun hn' => ?_, fun heq' => heq' ▸ hf⟩, hd⟩
        rw [heq, after_packageName heq, List.mem_append, List.mem_singleton] at hn
        exact hn.elim (fun hn => (judged_eq_false.mp (hbefore n hn) hn').1) id
  · rintro ⟨rfl, honly, hd⟩
    have hf := (honly packageName (by decide)).mpr rfl
    rw [find_of_onlyDescribed honly, judged_eq_error.mpr ⟨rfl, hf, rfl, hd⟩]
    rfl

/-- What comes of the search for a configuration file. -/
structure Discovery (w : World) (directory : Path) (result : Except Fault (Option Path)) : Prop where
  /-- The first candidate is found that counts. -/
  found : ∀ p, result = .ok (some p) ↔ ∃ before name after, candidates = before ++ name :: after ∧
    p = directory.child name ∧ Counts w directory name ∧ ∀ n ∈ before, w.isFile (directory.child n) = false
  /-- Nothing is found when there are no candidates but a package description without the key. -/
  absent : result = .ok none ↔ ∀ n ∈ candidates, w.isFile (directory.child n) = true →
    n = "package.json" ∧ ∃ text, w.read (directory.child n) = .ok text ∧ ¬ Describes text
  /-- The search fails when the only candidate is a package description that is no text. -/
  failed : ∀ f, result = .error f ↔
    f = .notUtf8 ∧ OnlyDescribed w directory ∧ w.decoded? (directory.child "package.json") = none
  /-- A package description that has the key is found if it is the only candidate, and can be loaded. -/
  kept : ∀ text v, OnlyDescribed w directory → w.read (directory.child "package.json") = .ok text →
    Holds text .package v → result = .ok (some (directory.child "package.json")) ∧
      load w (directory.child "package.json") = entriesOf (directory.child "package.json") v
  /-- What is found lacks the key for the loader when it is a package description that is a list or a text. -/
  refused : ∀ p, result = .ok (some p) → (load w p = .error (.problem (.noConfigKey p)) ↔
    p.name = "package.json" ∧ ∃ text v, w.read p = .ok text ∧ Json.read (String.ofList text) = .ok v ∧
      ((∃ items, v = .list items) ∨ ∃ s, v = .str s))

def describedWorld (content : List UInt8) : World where
  here := ["work"]
  entries := [(["work", "package.json"], .file content)]

def listWorld : World := describedWorld "[\"eslintConfig\"]".toUTF8.toList

def descriptionFile : Path := ⟨"/", ["work", "package.json"]⟩

/-- The texts of a document that is a list of texts. -/
def listed? : Value → Option (List String)
  | .list items => Value.strings? items
  | _ => none

end ConfigFile

end Cascade
