import Cascade.Proofs.ConfigFile
import Cascade.Proofs.Resolution.Contexts
import Cascade.Proofs.Resolution.Journals

/-! # References by path

A configuration that is referred to by its path, and that no module defines, is
found without loading anything. What it depends on besides its contents comes from
the path of the file, but for its name and its chain, on which its elements do not
depend. -/
namespace Cascade.Resolution

variable {r : Resolver} {w : World} {ctx : Context} {reference : String} {file : Path} {es : List Element}

/-- A reference by a path. -/
structure ByPath (reference : String) : Prop where
  notRules : ¬ sentinels.contains reference = true
  notPlugin : ¬ Text.startsWith reference "plugin:" = true
  isPath : isPathReference reference = true

/-- A reference by a path, and where it leads to, which is not to a module. -/
structure PathTo (w : World) (directory : Path) (reference : String) (file : Path) : Prop
    extends ByPath reference where
  resolves : w.resolve (directory.child reference) = .ok file
  notModule : file.suffix ≠ ".py"

/-- Where a configuration file stands that a reference leads to. -/
def Context.referred (ctx : Context) (reference : String) (file : Path) : Context where
  name := ctx.name ++ " » " ++ reference
  directory := file.parent
  file := some file
  criteria := ctx.criteria
  chain := ctx.chain ++ [file.text]

theorem fileConfig_quiet (path : Path) : Quiet w (fileConfig path) := by
  unfold fileConfig
  refine Quiet.world.bind fun w' _ => ?_
  split
  · exact .pure _
  · exact .throw _

theorem extended_quiet (config : Value) (reference identity : String) (file directory : Option Path) :
    Quiet w (do return (config, ← extend reference identity ctx file directory)) := by
  refine Quiet.bind ?_ fun _ _ => .pure _
  unfold extend
  split
  · exact .throw _
  · exact .pure _

theorem extended_eq_ok {config : Value} {identity : String} {file directory : Option Path} {e : Extended} :
    (do return (config, ← extend reference identity ctx file directory) : Action Extended).outcome w = .ok e ↔
      identity ∉ ctx.chain ∧ e = (config, {
        name := ctx.name ++ " » " ++ reference
        directory := directory.getD ctx.directory
        file
        criteria := ctx.criteria
        chain := ctx.chain ++ [identity] }) := by
  unfold extend
  by_cases hc : ctx.chain.contains identity = true
  · rw [if_pos hc]
    exact ⟨fun h => (nomatch h), fun h => absurd (List.contains_iff_mem.mp hc) h.1⟩
  · rw [if_neg hc]
    exact ⟨fun h => ⟨fun hmem => hc (List.contains_iff_mem.mpr hmem), (Except.ok.inj h).symm⟩,
      fun h => h.2 ▸ rfl⟩

theorem loadExtended_eq (hb : ByPath reference) : loadExtended r reference ctx = (do
    Action.debug Source.resolver ("Loading extends '" ++ reference ++ "' from '" ++ ctx.name ++ "'")
    pathConfig reference ctx) := by
  simp only [loadExtended, if_neg hb.notRules, if_neg hb.notPlugin, if_pos hb.isPath]

section
variable (hpy : ∀ file, w.resolve (ctx.directory.child reference) = .ok file → file.suffix ≠ ".py")
include hpy

theorem pathConfig_quiet : Quiet w (pathConfig reference ctx) := by
  unfold pathConfig
  refine Quiet.world.bind fun w' hw => ?_
  cases hw
  refine (Quiet.ofFault _).bind fun file hfile => ?_
  have hsuffix : ¬ (file.suffix == ".py") = true := by simpa using hpy file (mapError_eq_ok.mp hfile)
  dsimp only
  rw [if_neg hsuffix]
  split
  · exact (fileConfig_quiet file).bind fun config _ => extended_quiet config _ _ _ _
  · exact (Quiet.throw _).bind fun config _ => extended_quiet config _ _ _ _

/-- Nothing but the file has to be looked at. -/
theorem loadExtended_quiet (hb : ByPath reference) : Quiet w (loadExtended r reference ctx) := by
  rw [loadExtended_eq hb]
  exact (Quiet.debug _ _).bind fun _ _ => pathConfig_quiet hpy

/-- A reference by a path leads to what the file contains, unless that is on the way. -/
theorem loadExtended_eq_ok (hb : ByPath reference) {e : Extended} : (loadExtended r reference ctx).outcome w = .ok e ↔
    ∃ file m, PathTo w ctx.directory reference file ∧ ConfigFile.load w file = .ok m ∧
      file.text ∉ ctx.chain ∧ e = (.mapping m, ctx.referred reference file) := by
  have hpath : (loadExtended r reference ctx).outcome w = (pathConfig reference ctx).outcome w := by
    rw [loadExtended_eq hb, (Quiet.debug _ _).outcome_bind fun _ _ => pathConfig_quiet hpy]
    rfl
  rw [hpath, pathConfig, outcome_world, outcome_ofFault_bind, bind_eq_ok]
  simp only [mapError_eq_ok]
  refine exists_congr fun file => ?_
  constructor
  · rintro ⟨hfile, h⟩
    have hsuffix : ¬ (file.suffix == ".py") = true := by simpa using hpy file hfile
    rw [if_neg hsuffix] at h
    split at h
    · rw [(fileConfig_quiet file).outcome_bind fun config _ => extended_quiet config _ _ _ _,
        fileConfig_outcome, bind_eq_ok] at h
      obtain ⟨config, hconfig, h⟩ := h
      cases hl : ConfigFile.load w file with
      | error x => rw [hl] at hconfig; cases hconfig
      | ok m =>
        rw [hl] at hconfig
        cases hconfig
        obtain ⟨hnew, rfl⟩ := extended_eq_ok.mp h
        exact ⟨m, ⟨hb, hfile, hpy file hfile⟩, rfl, hnew, rfl⟩
    · cases h
  · rintro ⟨m, hp, hl, hnew, rfl⟩
    have hsuffix : ¬ (file.suffix == ".py") = true := by simpa using hp.notModule
    refine ⟨hp.resolves, ?_⟩
    rw [if_neg hsuffix, if_pos (ConfigFile.isFile_of_load hl),
      (fileConfig_quiet file).outcome_bind fun config _ => extended_quiet config _ _ _ _,
      fileConfig_outcome, hl]
    exact extended_eq_ok.mpr ⟨hnew, rfl⟩

end

namespace PathTo

variable {directory : Path}

theorem isResolved (hp : PathTo w directory reference file) : file.IsResolved :=
  Path.isResolved_of_resolve hp.resolves

theorem unique {file' : Path} (hp : PathTo w directory reference file)
    (h : w.resolve (directory.child reference) = .ok file') : file' = file := by
  rw [hp.resolves] at h
  exact (Except.ok.inj h).symm

theorem only (hp : PathTo w directory reference file) :
    ∀ file', w.resolve (directory.child reference) = .ok file' → file'.suffix ≠ ".py" :=
  fun _ h => hp.unique h ▸ hp.notModule

end PathTo

/-- What a reference by path leads to has the elements of the file, but for names. -/
theorem FromReference.resolves_file (hw : w.ModulesApart) (hp : PathTo w ctx.directory reference file)
    (hc : ctx.criteria = none) (h : FromReference r w ctx reference es) :
    ∃ m es', ConfigFile.load w file = .ok m ∧
      Resolves r w (.mapping m) (startContext r file.name (some file)) es' ∧
      es.map Element.anonymous = es'.map Element.anonymous := by
  obtain ⟨e, he, hres⟩ := h
  obtain ⟨_, m, hp', hl, -, rfl⟩ := (loadExtended_eq_ok hp.only hp.toByPath).mp he
  cases hp.unique hp'.resolves
  obtain ⟨es', hres', heq⟩ := (hres.after (List.subset_append_right ctx.chain [file.text])).renamed hw
    ⟨file.name, rfl, False.elim⟩
  refine ⟨m, es', hl, ?_, heq⟩
  simpa [startContext, Context.referred, Context.after, Context.named, hc] using hres'

end Cascade.Resolution
