import Cascade.Proofs.Conversion.OwnEntry
import Cascade.Proofs.Conversion.Processors
import Cascade.Proofs.PlainData

/-! # What the items of a conversion are

Whatever a node is made of, the items that its conversion gives are names of sets of
rules and mappings with texts as keys. Two keys hold mappings of that kind in turn:
the plugins by their names, and the options of the language. -/
namespace Cascade.Conversion

/-- The entries of an item that is no name of a set of rules. -/
structure IsEntry (m : Entries) : Prop where
  textual : m.Textual
  plugins : ∀ v, Entries.field? m "plugins" = some v → ∃ definitions : Entries, v = .mapping definitions ∧ definitions.Textual
  language : ∀ v, Entries.field? m "languageOptions" = some v → ∃ options : Entries, v = .mapping options ∧ options.Textual

inductive IsItem : Value → Prop where
  | rules (name : String) : IsItem (.str name)
  | entry {m : Entries} (h : IsEntry m) : IsItem (item m)

variable {s : Setting} {m : Entries} {items items' : Precedence Value}

/-- An item that has neither plugins nor options of the language. -/
theorem isItem_of_keys (h : m.Textual) (hp : Entries.field? m "plugins" = none)
    (hl : Entries.field? m "languageOptions" = none) : IsItem (item m) := by
  refine .entry ⟨h, fun v hv => ?_, fun v hv => ?_⟩
  · rw [hp] at hv
    cases hv
  · rw [hl] at hv
    cases hv

theorem isItem_processorItem? {e : Value × Value} {v : Value} (h : processorItem? e = some v) : IsItem v := by
  unfold processorItem? at h
  split at h
  · split at h
    · rw [← Option.some.inj h]
      exact isItem_of_keys (.of_sublist (show ["files", "processor"].Nodup by decide) (.refl _)) rfl rfl
    · cases h
  · cases h

theorem isItem_of_mem_processorItems {v : Value} (h : v ∈ processorItems s m) : IsItem v := by
  obtain ⟨p, -, hv⟩ := List.mem_flatMap.mp h
  obtain ⟨e, -, he⟩ := List.mem_filterMap.mp hv
  exact isItem_processorItem? he

theorem isItem_of_ignoreItem {pattern : Value} {ignored : List Value} (h : ignoreItem s pattern = .ok ignored) :
    ∀ v ∈ ignored, IsItem v := by
  unfold ignoreItem at h
  split at h
  · cases h
    exact nofun
  · obtain ⟨patterns, -, h⟩ := bind_eq_ok.mp h
    cases h
    exact List.forall_mem_singleton.mpr
      (isItem_of_keys (.of_sublist (show ["ignores"].Nodup by decide) (.refl _)) rfl rfl)

/-! ## The own item -/

theorem textual_definitionsOf (h : PluginsShaped s (m.at "plugins")) : (definitionsOf s m).Textual := by
  have hfold : definitionsOf s m =
      Entries.ofPairs ((pluginsOf s m).map fun p => (p.1, s.shared.member p.2 "definition")) := by
    rw [Entries.ofPairs, List.foldl_map]
    rfl
  rw [hfold]
  refine Entries.textual_ofPairs (List.forall_mem_map.mpr fun p hp => h.names p hp)

theorem field?_ownForm_plugins (s : Setting) (m : Entries) : Entries.field? (ownForm s m) "plugins" =
    if s.shared.truthy (m.at "plugins") then some (.mapping (definitionsOf s m)) else none := by
  simp [ownForm, withPatterns, Entries.field?_append, Entries.field?_optionalEntry, field?_ownOptions]

theorem isEntry_ownForm (h : PluginsShaped s (m.at "plugins")) : IsEntry (ownForm s m) := by
  obtain ⟨-, -, ⟨language, hgroup, hlanguage⟩, -, hkeys, -⟩ := ownEntry_ownForm s m
  refine ⟨.of_sublist (by decide) hkeys, fun v hv => ?_, fun v hv => ?_⟩
  · rw [field?_ownForm_plugins] at hv
    split at hv
    · exact ⟨_, (Option.some.inj hv).symm, textual_definitionsOf h⟩
    · cases hv
  · rw [hgroup] at hv
    split at hv
    · cases hv
    · exact ⟨language, (Option.some.inj hv).symm, .of_sublist (by decide) hlanguage.keys⟩

/-! ## The whole conversion -/

section
variable {expand : Value → Value → Logged (Precedence Value)}

theorem isItem_of_addEnvironment {environments : Entries} {e : Value × Value}
    (hx : ∀ name fragment r, (expand name fragment).result = .ok r → ∀ v ∈ r.items, IsItem v)
    (h : (addEnvironment s expand environments items e).result = .ok items') (hi : ∀ v ∈ items.items, IsItem v) :
    ∀ v ∈ items'.items, IsItem v := by
  rw [addEnvironment_result] at h
  split at h
  · split at h
    · obtain ⟨r, hr, rfl⟩ := map_eq_ok.mp h
      exact List.forall_mem_append.mpr ⟨hx _ _ r hr, hi⟩
    · obtain ⟨r, hr, rfl⟩ := map_eq_ok.mp h
      exact List.forall_mem_append.mpr ⟨hi, hx _ _ r hr⟩
    · cases h
      exact hi
  · cases h
    exact hi

/-- What stands in front of the environments of an ordinary node. -/
theorem isItem_of_contribution {c : Option Contribution} (h : (contribution s m items).result = .ok c)
    (hi : ∀ v ∈ items.items, IsItem v) :
    ∀ v ∈ ((c.map Contribution.items).getD items).items, IsItem v := by
  rw [contribution_result (contribution_shaped h)] at h
  split at h
  · cases h
    exact List.forall_mem_append.mpr ⟨fun v hv => isItem_of_mem_processorItems (List.mem_reverse.mp hv), hi⟩
  · cases h
    exact hi

theorem isItem_of_ordinary
    (hx : ∀ name fragment r, (expand name fragment).result = .ok r → ∀ v ∈ r.items, IsItem v)
    (h : (ordinary s expand m).result = .ok items) : ∀ v ∈ items.items, IsItem v := by
  unfold ordinary at h
  simp only [Logged.result_bind, languageOptions_result, ok_bind, Logged.result_ofFault] at h
  obtain ⟨ignored, hignored, h⟩ := bind_eq_ok.mp h
  obtain ⟨restricted, hr, h⟩ := bind_eq_ok.mp h
  obtain ⟨c, hc, h⟩ := bind_eq_ok.mp h
  obtain ⟨env, -, h⟩ := bind_eq_ok.mp h
  rw [Logged.result_foldlM] at h
  obtain ⟨folded, hfold, h⟩ := bind_eq_ok.mp h
  have hignored := isItem_of_ignoreItem (mapError_eq_ok.mp hignored)
  have hr : applyCriteria s (ownOptions s m) (m.at "criteria") = .ok restricted := mapError_eq_ok.mp hr
  have hown : IsEntry (ownEntries s m) := ownEntries_form hr ▸ isEntry_ownForm (contribution_shaped hc)
  rw [ownEntries_eq hr (contribution_definitions hc)] at hown
  have hfront : ∀ v ∈ (Precedence.empty.pushFrontAll ignored).items, IsItem v := by
    simpa [Precedence.pushFrontAll, Precedence.empty] using hignored
  have hcontributed := isItem_of_contribution hc hfront
  have hkept := foldlM_invariant (P := fun r : Precedence Value => ∀ v ∈ r.items, IsItem v)
    (fun _ _ _ => isItem_of_addEnvironment hx) hfold
  have hlast : ∀ own, IsEntry own → (∀ v ∈ folded.items, IsItem v) →
      Except.ok (if own.isEmpty then folded else folded.pushBack (item own)) = (.ok items : Except Failure _) →
      ∀ v ∈ items.items, IsItem v := by
    intro own hown hfolded h
    rw [← Except.ok.inj h]
    split
    · exact hfolded
    · exact List.forall_mem_append.mpr ⟨hfolded, List.forall_mem_singleton.mpr (.entry hown)⟩
  cases c with
  | none => exact hlast _ hown (hkept hcontributed) h
  | some c => exact hlast _ hown (hkept hcontributed) h

end

theorem isItem_of_ofNode {fuel : Nat} {chain : List Value} {node : Value}
    (h : (ofNode s fuel chain node).result = .ok items) : ∀ v ∈ items.items, IsItem v := by
  induction fuel generalizing chain node items with
  | zero => cases h
  | succ fuel ih =>
    rw [ofNode, Logged.result_bind] at h
    obtain ⟨m, -, h⟩ := bind_eq_ok.mp h
    rw [Logged.result_bind] at h
    obtain ⟨set, -, h⟩ := bind_eq_ok.mp h
    cases set with
    | some name =>
      cases h
      exact List.forall_mem_singleton.mpr (.rules name)
    | none =>
      refine isItem_of_ordinary (fun name fragment r hr => ?_) h
      split at hr
      · cases hr
      · exact ih hr

theorem isItem_of_convert {node : Value} {items : List Value} (h : (convert s node).result = .ok items) :
    ∀ v ∈ items, IsItem v := by
  rw [convert, Logged.result_bind] at h
  obtain ⟨converted, hconverted, h⟩ := bind_eq_ok.mp h
  cases h
  exact isItem_of_ofNode hconverted

end Cascade.Conversion
