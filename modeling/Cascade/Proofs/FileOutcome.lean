import Cascade.Proofs.ConfigFile

/-! # What comes of loading a configuration file

A file has a configuration when its text holds one in the format that its name tells.
Whatever else the text is, a problem is reported on the file; bytes that are no text are
not reported. -/
namespace Cascade

/-- The text that the bytes of a file are. -/
def World.decoded? (w : World) (p : Path) : Option String := String.fromUTF8? ⟨(w.bytes p).toArray⟩

theorem World.read_eq (w : World) (p : Path) : w.read p = match w.decoded? p with
    | some s => .ok (Text.unifyLineEnds s.toList)
    | none => .error .notUtf8 := rfl

namespace ConfigFile

variable {w : World} {p : Path}

/-- What is wrong is reported on the file. -/
def OnFile (p : Path) (problem : Problem) : Prop :=
  ∃ message details, problem.report = Problem.onFile p message details

/-- How the text of a file fails to be read. -/
inductive TextFailure (p : Path) (text : List Char) : Failure → Prop
  | reported {problem : Problem} : OnFile p problem → TextFailure p text (.problem problem)
  | yaml {f : Fault} : ReadAs p .yaml → Yaml.read text = .error (.fault f) → TextFailure p text (.fault f)

/-! ## Texts -/

theorem readJson_failsAs (p : Path) (text : List Char) : FailsAs (TextFailure p text) (readJson p text) :=
  .mapError fun _ _ => .reported ⟨_, _, rfl⟩

theorem readYaml_failsAs (hp : ReadAs p .yaml) (text : List Char) : FailsAs (TextFailure p text) (readYaml p text) := by
  refine .mapError fun refusal he => ?_
  cases refusal with
  | malformed problem mark => exact .reported ⟨_, _, rfl⟩
  | unacceptable c => exact .reported ⟨_, _, rfl⟩
  | fault f => exact .yaml hp he

theorem entriesOf_failsAs (p : Path) (text : List Char) (v : Value) :
    FailsAs (TextFailure p text) (entriesOf p v) := by
  unfold entriesOf
  split
  · exact .ok _
  · exact .ok _
  · exact .error (.reported ⟨_, _, rfl⟩)

/-- Whatever is wrong with a text is reported on the file, except for what the reader of
YAML fails with itself. -/
theorem parse_failsAs (p : Path) (text : List Char) : FailsAs (TextFailure p text) (parse p text) := by
  have noKey : FailsAs (TextFailure p text) (throw (.problem (.noConfigKey p)) : Except Failure Entries) :=
    .error (.reported ⟨_, _, rfl⟩)
  unfold parse
  split
  · refine (readJson_failsAs p text).bind fun v => ?_
    split
    · split
      · exact entriesOf_failsAs p text _
      · exact noKey
    · exact noKey
  · exact (readJson_failsAs p text).bind (entriesOf_failsAs p text)
  · rename_i hformat
    exact (readYaml_failsAs (format?_eq_some_iff.mp hformat) text).bind (entriesOf_failsAs p text)
  · exact .error (.reported ⟨_, _, rfl⟩)

/-! ## Files -/

theorem load_missing (h : w.isFile p = false) :
    load w p = .error (.problem (.missing .config p.text none none)) := by
  rw [load, h, if_neg Bool.false_ne_true]
  rfl

theorem load_undecoded (h : w.isFile p = true) (hd : w.decoded? p = none) : load w p = .error (.fault .notUtf8) := by
  rw [load, if_pos h, World.read_eq, hd]
  rfl

theorem load_decoded (h : w.isFile p = true) {s : String} (hd : w.decoded? p = some s) :
    load w p = parse p (Text.unifyLineEnds s.toList) := by
  rw [load, if_pos h, World.read_eq, hd]
  rfl

/-- A file fails to be loaded with a fault, or because it is missing or with a problem
that is reported on it. -/
theorem load_failsAs (w : World) (p : Path) : FailsAs (fun e => (∃ f, e = .fault f) ∨ ∃ problem, e = .problem problem ∧
    (problem = .missing .config p.text none none ∨ OnFile p problem)) (load w p) := by
  intro e he
  by_cases h : w.isFile p = true
  · cases hd : w.decoded? p with
    | some s =>
      rw [load_decoded h hd] at he
      cases parse_failsAs p _ e he with
      | reported honfile => exact .inr ⟨_, rfl, .inr honfile⟩
      | yaml _ _ => exact .inl ⟨_, rfl⟩
    | none =>
      cases (load_undecoded h hd).symm.trans he
      exact .inl ⟨_, rfl⟩
  · cases (load_missing (by simpa using h)).symm.trans he
    exact .inr ⟨_, rfl, .inl rfl⟩

/-- What comes of loading a file. -/
structure Outcome (w : World) (p : Path) (result : Except Failure Entries) : Prop where
  /-- A file is reported to be missing when there is none. -/
  missing : (∃ problem, result = .error (.problem problem) ∧ problem.report.category = .missing .config) ↔
    w.isFile p = false
  /-- A file has a configuration when it has a text that holds one in a format for its name. -/
  returned : ∀ m, result = .ok m ↔ ∃ s format v, w.isFile p = true ∧ w.decoded? p = some s ∧ ReadAs p format ∧
    Holds (Text.unifyLineEnds s.toList) format v ∧ Configures v m
  /-- A file that has a text has a configuration, or else a problem is reported on it. -/
  reported : w.isFile p = true → w.decoded? p ≠ none →
    (∃ m, result = .ok m) ∨ ∃ problem, result = .error (.problem problem) ∧ OnFile p problem
  /-- Bytes that are no text are not reported. -/
  undecoded : w.isFile p = true → w.decoded? p = none → result = .error (.fault .notUtf8)

theorem outcome_of_text {s : String} (h : w.isFile p = true) (hd : w.decoded? p = some s)
    (hyaml : ReadAs p .yaml → ∀ f, Yaml.read (Text.unifyLineEnds s.toList) ≠ .error (.fault f)) :
    Outcome w p (parse p (Text.unifyLineEnds s.toList)) := by
  have hreported : (∃ m, parse p (Text.unifyLineEnds s.toList) = .ok m) ∨
      ∃ problem, parse p (Text.unifyLineEnds s.toList) = .error (.problem problem) ∧ OnFile p problem := by
    cases hr : parse p (Text.unifyLineEnds s.toList) with
    | ok m => exact .inl ⟨m, rfl⟩
    | error e =>
      cases parse_failsAs p _ e hr with
      | @reported problem honfile => exact .inr ⟨problem, rfl, honfile⟩
      | @yaml f hp hread => exact absurd hread (hyaml hp f)
  refine ⟨iff_of_false ?_ (by simp [h]), fun m => ?_, fun _ _ => hreported, fun _ hnone => ?_⟩
  · rintro ⟨problem, hproblem, hcategory⟩
    rcases hreported with ⟨m, hm⟩ | ⟨problem', hproblem', message, details, hreport⟩
    · cases hm.symm.trans hproblem
    · cases hproblem'.symm.trans hproblem
      rw [hreport] at hcategory
      cases hcategory
  · rw [parse_eq_ok]
    constructor
    · rintro ⟨format, v, hv⟩
      exact ⟨s, format, v, h, hd, hv⟩
    · rintro ⟨s', format, v, -, hd', hv⟩
      cases hd.symm.trans hd'
      exact ⟨format, v, hv⟩
  · cases hd.symm.trans hnone

/-- This is so for every path and all bytes, if the reader of YAML accepts the text of the file
or refuses it. -/
theorem load_outcome (hyaml : ReadAs p .yaml → ∀ text f, w.read p = .ok text → Yaml.read text ≠ .error (.fault f)) :
    Outcome w p (load w p) := by
  by_cases h : w.isFile p = true
  · cases hd : w.decoded? p with
    | some s =>
      rw [load_decoded h hd]
      refine outcome_of_text h hd fun hp f => hyaml hp _ f ?_
      rw [World.read_eq, hd]
    | none =>
      rw [load_undecoded h hd]
      exact ⟨iff_of_false (by simp) (by simp [h]), fun m => iff_of_false (by simp) (by simp [hd]),
        fun _ hsome => absurd hd hsome, fun _ _ => rfl⟩
  · have h : w.isFile p = false := by simpa using h
    rw [load_missing h]
    exact ⟨iff_of_true ⟨_, rfl, rfl⟩ h, fun m => iff_of_false (by simp) (by simp [h]), by simp [h], by simp [h]⟩

/-! A configuration in YAML, and a file in JSON of one byte that is no text. -/

def filesWorld : World where
  here := ["work"]
  entries := [
    (["work", ".eslintrc"], .file "root: true\n".toUTF8.toList),
    (["work", "bad.json"], .file [0xff])]

def rootFile : Path := ⟨"", [".eslintrc"]⟩

def badFile : Path := ⟨"", ["bad.json"]⟩

theorem decoded_rootFile : filesWorld.decoded? rootFile = some "root: true\n" := by decide +kernel

theorem exists_entries_rootFile : ∃ v, Yaml.read "root: true\n".toList = .ok v ∧ ∃ m, Configures v m ∧ m.length = 1 := by
  obtain ⟨v, hv, hentries⟩ : ∃ v, Yaml.read "root: true\n".toList = .ok v ∧
      (entriesOf rootFile v).toOption.map List.length = some 1 := exists_ok_of_map (by decide +kernel)
  obtain ⟨m, hm, hlength⟩ := exists_ok_of_map hentries
  exact ⟨v, hv, m, entriesOf_eq_ok.mp hm, hlength⟩

theorem load_outcome_filesWorld : (ReadAs rootFile .yaml → ∀ text f, filesWorld.read rootFile = .ok text →
    Yaml.read text ≠ .error (.fault f)) ∧ ∃ m, load filesWorld rootFile = .ok m ∧ m.length = 1 := by
  obtain ⟨v, hv, m, hm, hlength⟩ := exists_entries_rootFile
  have htext : Text.unifyLineEnds "root: true\n".toList = "root: true\n".toList := by decide
  have hyaml : ReadAs rootFile .yaml → ∀ text f, filesWorld.read rootFile = .ok text →
      Yaml.read text ≠ .error (.fault f) := by
    intro _ text f hread
    rw [World.read_eq, decoded_rootFile] at hread
    cases hread
    rw [htext, hv]
    simp
  refine ⟨hyaml, m, ?_, hlength⟩
  refine ((load_outcome hyaml).returned m).mpr ⟨_, .yaml, v, by decide +kernel, decoded_rootFile, ?_, ?_, hm⟩
  · exact .yaml (.inr (.inr (by decide)))
  · rw [htext]
    exact .yaml hv

/-- A file whose bytes are no text is neither loaded nor reported. -/
theorem undecoded_file_not_reported : filesWorld.isFile badFile = true ∧ ReadAs badFile .json ∧
    ¬ ((∃ m, load filesWorld badFile = .ok m) ∨ ∃ problem, load filesWorld badFile = .error (.problem problem)) := by
  have hload : load filesWorld badFile = .error (.fault .notUtf8) := load_undecoded (by decide +kernel) (by decide +kernel)
  refine ⟨by decide +kernel, .json (by decide) (by decide), ?_⟩
  rw [hload]
  simp

end ConfigFile

end Cascade
