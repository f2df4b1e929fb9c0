import Cascade.Command
import Cascade.Proofs.Action
import Cascade.Proofs.Markup

/-! # How a conversion that fails is reported

A conversion that has come as far as its file and fails there with a problem prints
nothing, and reports what the problem says after what the log writes. The console reads
that report as text with marks, so it shows the words as they are only if they are literal. -/
namespace Cascade

/-! ## Logs without a place -/

namespace Logging

variable {log : Log} {records : List Record}

/-- Without a place for records nothing but warnings appears. -/
theorem write_quiet (h : log.handlers = []) (stamp : String) {r : Record} (hr : r.level < Level.warning) :
    log.write stamp r = (log, "") := by
  unfold Log.write
  split
  · rfl
  · rw [if_pos (by simp [h]), if_neg (Int.not_le.mpr hr)]

theorem writeAll_quiet (h : log.handlers = []) (stamp : String) (hr : ∀ r ∈ records, r.level < Level.warning) :
    log.writeAll stamp records = (log, "") := by
  unfold Log.writeAll
  induction records with
  | nil => rfl
  | cons r rest ih =>
    obtain ⟨hr, hrest⟩ := List.forall_mem_cons.mp hr
    rw [List.foldl_cons]
    simp only [write_quiet h stamp hr]
    exact ih hrest

theorem writeAll_snoc (stamp : String) (log : Log) (records : List Record) (r : Record) :
    log.writeAll stamp (records ++ [r]) =
      (((log.writeAll stamp records).1.write stamp r).1,
        (log.writeAll stamp records).2 ++ ((log.writeAll stamp records).1.write stamp r).2) := by
  rw [Log.writeAll, List.foldl_append]
  rfl

end Logging

namespace Command

open Logging (Log)

variable {console : Console} {w : World} {a : Arguments} {args : List String} {file : Option String}

/-! ## Reports -/

/-- A run that prints nothing and reports a text after what the log wrote. -/
def reporting (written : Log × String) (text : String) : Except Failure Outcome :=
  .ok ⟨1, .text "", written.2 ++ ("Error: " ++ text) ++ "\n", written.1.world⟩

theorem reporting_inj {written : Log × String} {text text' : String} :
    reporting written text = reporting written text' ↔ text = text' := by
  constructor
  · intro h
    injection h with h
    injection h with _ _ h _
    rw [String.append_left_inj, String.append_right_inj, String.append_right_inj] at h
    exact h
  · intro h
    rw [h]

/-- How a run ends that reports a message after what the log wrote. -/
structure Reported (console : Console) (written : Log × String) (message : String)
    (result : Except Failure Outcome) : Prop where
  /-- Literal words are reported as they are, and no others. -/
  unchanged : result = reporting written message ↔ console.Literal message
  /-- Marks are left out as far as they match, and so is what else has a meaning for the console. -/
  altered : ¬ console.Misplaced message →
    result = reporting written (String.ofList (console.bare (console.columns "Error: ".toList) message))
  /-- There is no report if a closing mark is among them that closes none. -/
  lost : console.Misplaced message → result = .error (.fault .badMarkup)

theorem failing_of_not_misplaced {message : String} (h : ¬ console.Misplaced message) (written : Log × String) :
    failing console written.2 message written.1.world =
      reporting written (String.ofList (console.bare (console.columns "Error: ".toList) message)) := by
  rw [failing, Console.shown_labelled]
  cases hmarks : (Console.marks message).foldlM console.follow [] with
  | error f => exact absurd (Console.foldlM_marks_eq_error.mp hmarks).2 h
  | ok opened => rfl

theorem failing_of_misplaced {message : String} (h : console.Misplaced message) (written : Log × String) :
    failing console written.2 message written.1.world = .error (.fault .badMarkup) := by
  rw [failing, Console.shown_labelled, Console.foldlM_marks_eq_error.mpr ⟨rfl, h⟩]
  rfl

theorem failing_reported (console : Console) (written : Log × String) (message : String) :
    Reported console written message (failing console written.2 message written.1.world) := by
  refine ⟨⟨fun h => ?_, fun h => ?_⟩, fun h => failing_of_not_misplaced h written,
    fun h => failing_of_misplaced h written⟩
  · have hplaced : ¬ console.Misplaced message := by
      intro hmisplaced
      rw [failing_of_misplaced hmisplaced] at h
      cases h
    rw [failing_of_not_misplaced hplaced, reporting_inj] at h
    have hbare := congrArg String.toList h
    rw [String.toList_ofList] at hbare
    exact Console.literal_of_bare hbare
  · rw [failing_of_not_misplaced (Console.not_misplaced_of_literal h), Console.bare_of_literal h, String.ofList_toList]

/-! ## Runs -/

/-- The arguments ask for a conversion, of the file that is given if there is one. -/
structure Asks (args : List String) (a : Arguments) (file : Option String) : Prop where
  command : ∃ whole rest, Arguments.parse? specs args = some whole ∧ whole.firstOf? ["version", helpKey] = none ∧
    whole.rest = "translate" :: rest ∧ Arguments.parse? convertSpecs rest = some a
  helpless : a.value? helpKey = none
  files : a.rest = file.toList

/-- A conversion that comes as far as its file: there are settings, a log, a format
that is known, the file, and a flattener. -/
structure Attempt (w : World) (a : Arguments) (file : Option String) where
  settings : Settings
  loaded : Settings.load w (projectOf w a) = .ok settings
  log : Log
  logged : logOf w ((a.value? "level").getD "") settings (projectOf w a) = .ok log
  known : Settings.formats.contains (formatOf a settings) = true
  path : Path
  found : configFile log.world (projectOf w a) file = .ok (some path)
  flattener : Flattener
  placed : flattenerOf (projectOf w a) a settings = .ok flattener

/-- What becomes of the file, and the session after it. -/
def Attempt.result (t : Attempt w a file) : Except Failure (List Value) × Session :=
  (t.flattener.configFile (w.directory.join t.path)).runFrom (Session.start t.log.world)

theorem runOn_asked (h : Asks args a file) (console : Console) (stamp : String) (w : World) :
    runOn console stamp args w = convertFile console stamp a file w := by
  obtain ⟨whole, rest, hwhole, hearly, hrest, hparsed⟩ := h.command
  have hconvert : convert console stamp rest w = convertFile console stamp a file w := by
    rw [convert, hparsed]
    simp only [h.helpless, h.files]
    cases file <;> rfl
  rw [runOn, hwhole]
  simp only [hearly, hrest]
  exact hconvert

theorem convertFile_attempt (t : Attempt w a file) (console : Console) (stamp : String) :
    convertFile console stamp a file w = finish console stamp t.log (formatOf a t.settings) t.result := by
  have hlift : ∀ {α : Type} (x : α), (liftM (Except.ok x : Except Fault α) : Except Failure α) = .ok x := fun _ => rfl
  unfold convertFile
  simp only [t.loaded, t.logged, t.placed, hlift, ok_bind, t.known, t.found]
  rfl

theorem finish_problem (console : Console) (stamp : String) (log : Log) (format : String) (p : Problem) (s : Session) :
    finish console stamp log format (.error (.problem p), s) =
      failing console (log.writeAll stamp (s.journal ++ [failed])).2 p.report.message
        (log.writeAll stamp (s.journal ++ [failed])).1.world := by
  rw [Logging.writeAll_snoc]
  rfl

theorem runOn_problem (h : Asks args a file) (t : Attempt w a file) {p : Problem} {s : Session}
    (hrun : t.result = (.error (.problem p), s)) (console : Console) (stamp : String) : runOn console stamp args w =
      failing console (t.log.writeAll stamp (s.journal ++ [failed])).2 p.report.message
        (t.log.writeAll stamp (s.journal ++ [failed])).1.world := by
  rw [runOn_asked h, convertFile_attempt t, hrun, finish_problem]

def patterns : List String := ["../x", "/app/[slug]/**", "../[/docs]"]

def patternWorld (pattern : String) : World where
  here := ["work"]
  entries := [(["work", ".eslintrc.json"],
    .file ("\x7b\"overrides\": [\x7b\"files\": \"" ++ pattern ++ "\"\x7d]\x7d").toUTF8.toList)]

def patternAttempt (pattern : String) : Attempt (patternWorld pattern) {} none where
  settings := ⟨[]⟩
  loaded := rfl
  log := { world := patternWorld pattern }
  logged := rfl
  known := by decide
  path := ⟨"/", ["work", ".eslintrc.json"]⟩
  found := rfl
  flattener := Flattener.ofDirectories ⟨"/", ["work"]⟩ none
  placed := rfl

def patternMessage (pattern : String) : String :=
  "Invalid override pattern (expected relative path not containing '..'): " ++ pattern ++
    " in .eslintrc.json#overrides[0]"

/-- What the problem says with which a conversion fails, and whether only records below
warnings were made. -/
def ending? : Except Failure (List Value) × Session → Option (String × Bool)
  | (.error (.problem p), s) => some (p.report.message, s.journal.all (·.level < Level.warning))
  | _ => none

theorem exists_problem {result : Except Failure (List Value) × Session} {message : String}
    (h : ending? result = some (message, true)) : ∃ p s, result = (.error (.problem p), s) ∧
      p.report.message = message ∧ ∀ r ∈ s.journal ++ [failed], r.level < Level.warning := by
  unfold ending? at h
  split at h
  · rename_i p s
    obtain ⟨hmessage, hlevels⟩ := Prod.mk.inj (Option.some.inj h)
    refine ⟨p, s, rfl, hmessage, List.forall_mem_append.mpr ⟨fun r hr => ?_, by decide⟩⟩
    simpa using List.all_eq_true.mp hlevels r hr
  · cases h

theorem ending_patternAttempt :
    ∀ pattern ∈ patterns, ending? (patternAttempt pattern).result = some (patternMessage pattern, true) := by
  decide +kernel

theorem asks_translate : Asks ["translate"] {} none := by
  have hparsed : (Arguments.parse? specs ["translate"]).map (fun a => (a.options, a.rest)) =
      some ([], ["translate"]) := by
    decide +kernel
  obtain ⟨⟨options, rest⟩, hwhole, hparts⟩ := Option.map_eq_some_iff.mp hparsed
  obtain ⟨rfl, rfl⟩ := Prod.mk.inj hparts
  exact ⟨⟨_, [], hwhole, rfl, rfl, rfl⟩, rfl, rfl⟩

/-- What is seen of a run: its exit code, what it printed and its errors, or the fault
that broke it off. -/
def seen : Except Failure Outcome → Option (Except Fault (Nat × String × String))
  | .ok o => some (.ok (o.exitCode, o.output.shown, o.errors))
  | .error (.fault f) => some (.error f)
  | .error _ => none

theorem suffix_of_reporting {written : Log × String} {text errors : String}
    (h : seen (reporting written text) = some (.ok (1, "", errors))) : (text ++ "\n").toList <:+ errors.toList := by
  simp only [seen, reporting, Option.some.injEq, Except.ok.injEq, Prod.mk.injEq] at h
  refine ⟨(written.2 ++ "Error: ").toList, ?_⟩
  rw [← h.2.2, ← String.toList_append, ← String.append_assoc, ← String.append_assoc]

end Command

end Cascade
