import Cascade.Proofs.FileOutcome
import Cascade.Proofs.Resolution.Termination
import Cascade.Proofs.Written
import Cascade.Proofs.Yaml.Documents

/-! # Worlds whose files come to an end

That every configuration can be read and is a finite tree is known of files from their
documents: it is enough that no alias in one names a node around it. -/
namespace Cascade

variable {w : World} {p : Path}

namespace ConfigFile

/-- A configuration in a file is what a text holds. -/
theorem written_load {m : Entries} (h : load w p = .ok m) : (Value.mapping m).Written := by
  unfold load at h
  split at h
  · obtain ⟨text, -, h⟩ := bind_eq_ok.mp h
    obtain ⟨format, v, -, hholds, hm⟩ := parse_eq_ok.mp h
    have hv : v.Written := by
      cases hholds with
      | package hread hfield => exact (Json.written_read hread).field hfield
      | json hread => exact Json.written_read hread
      | yaml hread => exact Yaml.written_read hread
    rcases hm with rfl | ⟨-, rfl⟩
    · exact hv
    · exact .mapping (List.forall_mem_nil _)
  · cases h

/-- What loading a file fails with itself: bytes that are no text, a scalar whose type does
not take its text, or else a document in which an alias names a node around it. -/
theorem load_fault {f : Fault} (h : load w p = .error (.fault f)) : f = .notUtf8 ∨ f ∈ Yaml.scalarFaults ∨
    ReadAs p .yaml ∧ ∃ text root, w.read p = .ok text ∧
      Yaml.Node.ofTokens (Yaml.Tokens.ofText text) = .ok (some root) ∧ ¬ root.Finite := by
  by_cases hfile : w.isFile p = true
  · cases hd : w.decoded? p with
    | none =>
      cases (load_undecoded hfile hd).symm.trans h
      exact .inl rfl
    | some s =>
      rw [load_decoded hfile hd] at h
      cases parse_failsAs p _ _ h with
      | yaml hp hread =>
        refine .inr ((Yaml.read_fault hread).imp_right fun ⟨root, hroot, hinfinite⟩ => ?_)
        exact ⟨hp, _, root, by rw [World.read_eq, hd], hroot, hinfinite⟩
  · cases (load_missing (by simpa using hfile)).symm.trans h

end ConfigFile

/-- No alias in a configuration file names a node around it. -/
def World.FiniteDocuments (w : World) : Prop :=
  ∀ p text root, ConfigFile.ReadAs p .yaml → w.read p = .ok text →
    Yaml.Node.ofTokens (Yaml.Tokens.ofText text) = .ok (some root) → root.Finite

/-- What has no bytes holds no document. -/
theorem ofTokens_nil : Yaml.Node.ofTokens (Yaml.Tokens.ofText []) = .ok none := rfl

/-- Whether no alias in what bytes hold, if they hold a document, names a node around it. -/
def holdsFinite (content : List UInt8) : Bool :=
  match String.fromUTF8? ⟨content.toArray⟩ with
  | none => true
  | some s => match Yaml.Node.ofTokens (Yaml.Tokens.ofText (Text.unifyLineEnds s.toList)) with
    | .ok (some root) => root.Finite
    | _ => true

/-- It is enough to look at every file of a world once. -/
theorem World.finiteDocuments_of_entries (h : ∀ e ∈ w.entries, holdsFinite e.2.content) : w.FiniteDocuments := by
  intro p text root _ htext hroot
  rw [World.read_eq] at htext
  cases hd : w.decoded? p with
  | none =>
    rw [hd] at htext
    cases htext
  | some s =>
    rw [hd] at htext
    cases htext
    have hnothing (hbytes : w.bytes p = []) : root.Finite := by
      have hempty : String.fromUTF8? ⟨([] : List UInt8).toArray⟩ = some "" := rfl
      rw [World.decoded?, hbytes, hempty] at hd
      cases hd
      cases ofTokens_nil.symm.trans hroot
    cases hfind : w.find? p with
    | none => exact hnothing (by rw [World.bytes, hfind]; rfl)
    | some e =>
      have hbytes : w.bytes p = e.content := by rw [World.bytes, hfind]; rfl
      rcases World.find?_cases hfind with ⟨names, hmem⟩ | rfl
      · have hs : String.fromUTF8? ⟨e.content.toArray⟩ = some s := hbytes ▸ hd
        simpa [holdsFinite, hs, hroot] using h _ hmem
      · exact hnothing hbytes

/-- The files of a world can be looked at by computing. An alias outside the node that it
names does no harm. -/
example : World.FiniteDocuments { here := ["work"], entries := [
    (["work", ".eslintrc"], .file "rules: &r\n  eqeqeq: error\nsettings: *r\n".toUTF8.toList)] } :=
  World.finiteDocuments_of_entries (by decide +kernel)

/-- So the configurations in files need not be looked at. -/
theorem World.finiteConfigs_of_documents (hdocuments : w.FiniteDocuments)
    (htrees : ∀ v, w.HasConfig v → (∀ p m, ConfigFile.load w p = .ok m → v ≠ .mapping m) → w.shared.IsTree v) :
    w.FiniteConfigs where
  readable := by
    intro p h
    rcases ConfigFile.load_fault h with h | h | ⟨hp, text, root, htext, hroot, hinfinite⟩
    · cases h
    · revert h
      decide
    · exact hinfinite (hdocuments p text root hp htext hroot)
  trees := by
    intro v hv
    by_cases hfile : ∃ p m, ConfigFile.load w p = .ok m ∧ v = .mapping m
    · obtain ⟨p, m, hm, rfl⟩ := hfile
      exact Resolution.isTree_of_not_hasShared (ConfigFile.written_load hm).hasShared
    · exact htrees v hv fun p m hm he => hfile ⟨p, m, hm, he⟩

end Cascade
