import Cascade.Proofs.Conversion.Cycle
import Cascade.Proofs.Conversion.OwnForm

/-! # Nothing of a node is lost, and nothing comes twice

Every option of a node has one place in the node's own item. The options of the
parser are the only ones that are split: two of them become options of the
language, and with those put back they are what they were, but for the place of
the two. -/
namespace Cascade

namespace Entries

/-- No two keys are equal. -/
def Distinct (m : Entries) : Prop := (keys m).Pairwise fun k k' => k.same k' = false

theorem Distinct.erase {m : Entries} (h : Distinct m) (key : Value) : Distinct (m.erase key) :=
  h.sublist (List.filter_sublist.map Prod.fst)

theorem erase_cons (e : Value × Value) (m : Entries) (key : String) :
    erase (e :: m) (.str key) = if e.1.same (.str key) then erase m (.str key) else e :: erase m (.str key) := by
  by_cases h : e.1.same (.str key) = true <;> simp [erase, h]

theorem get?_erase_other {key : String} {other : Value} (h : other ≠ .str key) (m : Entries) :
    get? (erase m (.str key)) other = get? m other := by
  have hkeeps : ∀ e : Value × Value,
      decide ((!e.1.same (.str key)) = true ∧ e.1.same other = true) = e.1.same other := by
    intro e
    by_cases he : e.1.same (.str key) = true
    · have hother : e.1.same other = false := by
        rw [(Value.same_str _ _).mp he, Bool.eq_false_iff, Ne, Value.str_same]
        exact h
      simp [hother]
    · simp [Bool.eq_false_iff.mpr he]
  rw [get?, get?, erase, List.find?_filter]
  congr 2
  exact funext hkeeps

theorem field?_erase_self (m : Entries) (key : String) : field? (erase m (.str key)) key = none := by
  rw [field?_eq_none]
  intro e he heq
  have hkept := (List.mem_filter.mp he).2
  rw [heq, (Value.same_str _ _).mpr rfl] at hkept
  cases hkept

/-- An entry that is taken out and put in front is still found. -/
theorem get?_front (m : Entries) (key : String) (other : Value) :
    get? (Node.optionalEntry key (field? m key) ++ erase m (.str key)) other = get? m other := by
  by_cases h : other = .str key
  · subst h
    have := field?_append (Node.optionalEntry key (field? m key)) (erase m (.str key)) key
    rw [field?_optionalEntry, if_pos rfl] at this
    rw [← field?, this]
    cases hm : field? m key with
    | some v => exact hm.symm
    | none =>
      rw [erase_absent hm, Option.none_or, hm]
      exact hm.symm
  · have hfront : (Node.optionalEntry key (field? m key)).find? (fun e => e.1.same other) = none := by
      rw [List.find?_eq_none]
      intro e he hsame
      obtain ⟨v, -, rfl⟩ := Option.map_eq_some_iff.mp (Option.mem_toList.mp he)
      exact h ((Value.str_same key other).mp hsame)
    rw [get?, List.find?_append, hfront, Option.none_or, ← get?, get?_erase_other h]

/-- An entry that is taken out and put in front comes from another place. -/
theorem front_perm {m : Entries} (h : Distinct m) (key : String) :
    (Node.optionalEntry key (field? m key) ++ erase m (.str key)).Perm m := by
  induction m with
  | nil => exact .refl _
  | cons e rest ih =>
    obtain ⟨hfirst, hrest⟩ := List.pairwise_cons.mp h
    obtain ⟨k, v⟩ := e
    by_cases he : k.same (.str key) = true
    · have hk := (Value.same_str _ _).mp he
      subst hk
      have habsent : field? rest key = none := by
        rw [field?_eq_none]
        intro e hmem hkey
        have hne := hfirst e.1 (List.mem_map_of_mem hmem)
        rw [hkey] at hne
        exact Bool.false_ne_true (hne.symm.trans he)
      rw [field?_cons, if_pos he, erase_cons, if_pos he, erase_absent habsent]
      exact .refl _
    · rw [field?_cons, if_neg he, erase_cons, if_neg he]
      exact List.perm_middle.trans ((ih hrest).cons _)

end Entries

namespace Conversion

variable {s : Setting} {m own : Entries}

/-! ## The options of the language -/

/-- The parser options of a node where they are a mapping. -/
def parserOptions? (s : Setting) (m : Entries) : Option Entries :=
  match s.shared.view (m.at "parserOptions") with
  | .mapping options => some options
  | _ => none

/-- A mapping under a key, which is absent when nothing is in it. -/
def Grouped (own : Entries) (key : String) (part : Entries) : Prop :=
  Entries.field? own key = if part.isEmpty then none else some (.mapping part)

/-- The options of the language that stand for those of a node. -/
structure LanguageOf (s : Setting) (m language : Entries) : Prop where
  globals : (Entries.field? language "globals").map s.shared.view =
    (Entries.field? m "globals").map s.shared.view
  parser : Entries.field? language "parser" =
    (Entries.field? m "parser").map (s.shared.member · "definition")
  hoisted : ∀ key ∈ hoistedOptions,
    Entries.field? language key = (parserOptions? s m).bind (Entries.field? · key)
  split : ∀ options, parserOptions? s m = some options →
    Grouped language "parserOptions" (remaining options)
  kept : parserOptions? s m = none →
    Entries.field? language "parserOptions" = Entries.field? m "parserOptions"
  keys : (Entries.keys language).Sublist
    (["globals", "parser", "parserOptions", "ecmaVersion", "sourceType"].map .str)

theorem view_copied (v : Value) : s.shared.view (copied s v) = s.shared.view v := by
  unfold copied
  split
  · rename_i options hv
    rw [hv]
    rfl
  · rfl

theorem field?_languageEntry (s : Setting) (m : Entries) (key name : String) :
    Entries.field? (languageEntry s m key) name = if key = name then
      (Entries.field? m key).map (fun v =>
        if key == "parser" then s.shared.member v "definition" else copied s v) else none := by
  unfold languageEntry
  cases Entries.field? m key with
  | none => simp [Entries.field?, Entries.get?]
  | some v => rw [Entries.field?_entry]; rfl

theorem keys_languageEntry (s : Setting) (m : Entries) (key : String) :
    (Entries.keys (languageEntry s m key)).Sublist [.str key] := by
  unfold languageEntry
  split <;> simp [Entries.keys]

theorem keys_optionalEntry (key : String) (v : Option Value) :
    (Entries.keys (Node.optionalEntry key v)).Sublist [.str key] := by
  cases v <;> simp [Entries.keys, Node.optionalEntry]

theorem keys_group (key : String) (part : Entries) :
    (Entries.keys (group key part)).Sublist [.str key] := by
  unfold group
  split <;> simp [Entries.keys]

theorem keys_selected (keys : List String) (m : Entries) :
    (Entries.keys (selected keys m)).Sublist (keys.map .str) := by
  induction keys with
  | nil => exact .refl _
  | cons key rest ih =>
    rw [selected_cons, Entries.keys, List.map_append]
    exact (keys_optionalEntry key _).append ih

/-- The options of a language before its parser options. -/
def languageFront (s : Setting) (m : Entries) : Entries :=
  languageEntry s m "globals" ++ languageEntry s m "parser"

theorem field?_languageFront (s : Setting) (m : Entries) (name : String) :
    Entries.field? (languageFront s m) name =
      (if "globals" = name then (Entries.field? m "globals").map (copied s) else none).or
      (if "parser" = name then (Entries.field? m "parser").map (s.shared.member · "definition") else none) := by
  rw [languageFront, Entries.field?_append, field?_languageEntry, field?_languageEntry]
  rfl

theorem keys_languageFront (s : Setting) (m : Entries) :
    (Entries.keys (languageFront s m)).Sublist (["globals", "parser"].map .str) := by
  rw [languageFront, Entries.keys, List.map_append]
  exact (keys_languageEntry s m "globals").append (keys_languageEntry s m "parser")

theorem languageEntry_mapping {options : Entries} (h : parserOptions? s m = some options) :
    languageEntry s m "parserOptions" = [(.str "parserOptions", .mapping options)] := by
  unfold parserOptions? Entries.at at h
  cases hm : Entries.field? m "parserOptions" with
  | none =>
    rw [hm] at h
    cases h
  | some v =>
    rw [hm, Option.getD_some] at h
    split at h
    · rename_i hv
      cases h
      rw [languageEntry, hm]
      show [(Value.str "parserOptions", copied s v)] = _
      rw [copied, hv]
    · cases h

theorem languageEntry_other (h : parserOptions? s m = none) :
    languageEntry s m "parserOptions" =
        Node.optionalEntry "parserOptions" (Entries.field? m "parserOptions") ∧
      ∀ options, Entries.field? m "parserOptions" ≠ some (.mapping options) := by
  unfold parserOptions? Entries.at at h
  cases hm : Entries.field? m "parserOptions" with
  | none =>
    rw [languageEntry, hm]
    exact ⟨rfl, fun options => nofun⟩
  | some v =>
    rw [hm, Option.getD_some] at h
    split at h
    · cases h
    · rename_i hother
      have hcopied : copied s v = v := by
        unfold copied
        split
        · rename_i options hv
          exact absurd hv (hother options)
        · rfl
      rw [languageEntry, hm]
      refine ⟨?_, ?_⟩
      · show [(Value.str "parserOptions", copied s v)] = _
        rw [hcopied]
        rfl
      · rintro options ⟨⟩
        exact hother options rfl

/-- Neither parser options nor what is hoisted out of them come before the parser options. -/
theorem field?_languageFront_options (s : Setting) (m : Entries) {key : String}
    (hkey : key ∈ "parserOptions" :: hoistedOptions) : Entries.field? (languageFront s m) key = none := by
  rw [field?_languageFront]
  simp only [hoistedOptions, List.mem_cons, List.not_mem_nil, or_false] at hkey
  rcases hkey with rfl | rfl | rfl <;> rfl

/-- The options of a language in order. -/
theorem ownLanguage_eq (s : Setting) (m : Entries) : ownLanguage s m = languageFront s m ++
    match parserOptions? s m with
    | some options => group "parserOptions" (remaining options) ++ selected hoistedOptions options
    | none => Node.optionalEntry "parserOptions" (Entries.field? m "parserOptions") := by
  have hfront : ∀ key ∈ "parserOptions" :: hoistedOptions, Entries.field? (languageFront s m) key = none :=
    fun _ => field?_languageFront_options s m
  have hentries : ownLanguage s m = hoist (languageFront s m ++ languageEntry s m "parserOptions") := by
    simp [ownLanguage, languageFront]
  rw [hentries]
  cases h : parserOptions? s m with
  | some options =>
    rw [languageEntry_mapping h, hoist_mapping hfront, List.append_assoc]
  | none =>
    obtain ⟨hentry, hother⟩ := languageEntry_other h
    rw [hentry]
    refine hoist_other fun options => ?_
    rw [Entries.field?_append, hfront "parserOptions" (by simp), Entries.field?_optionalEntry]
    exact hother options

theorem field?_ownLanguage (s : Setting) (m : Entries) (key : String) :
    Entries.field? (ownLanguage s m) key =
      (Entries.field? (languageFront s m) key).or (match parserOptions? s m with
        | some options => (if "parserOptions" = key then
              (if (remaining options).isEmpty then none else some (.mapping (remaining options))) else none).or
            (if key ∈ hoistedOptions then Entries.field? options key else none)
        | none => if "parserOptions" = key then Entries.field? m "parserOptions" else none) := by
  rw [ownLanguage_eq, Entries.field?_append]
  split
  · rw [Entries.field?_append, field?_group, field?_selected]
  · rw [Entries.field?_optionalEntry]

theorem keys_ownLanguage (s : Setting) (m : Entries) : (Entries.keys (ownLanguage s m)).Sublist
    (["globals", "parser", "parserOptions", "ecmaVersion", "sourceType"].map .str) := by
  rw [ownLanguage_eq, Entries.keys, List.map_append]
  show List.Sublist _ (["globals", "parser"].map Value.str ++
    ["parserOptions", "ecmaVersion", "sourceType"].map Value.str)
  refine (keys_languageFront s m).append ?_
  split
  · rw [List.map_append]
    exact (keys_group _ _).append (keys_selected hoistedOptions _)
  · exact (keys_optionalEntry _ _).trans (by simp)

theorem languageOf_ownLanguage (s : Setting) (m : Entries) : LanguageOf s m (ownLanguage s m) where
  globals := by
    have hfront : (Entries.field? (languageFront s m) "globals").map s.shared.view =
        (Entries.field? m "globals").map s.shared.view := by
      rw [field?_languageFront, if_pos rfl, if_neg (by decide), Option.or_none, Option.map_map]
      congr 1
      exact funext view_copied
    rw [field?_ownLanguage, ← hfront]
    cases parserOptions? s m <;> simp [hoistedOptions]
  parser := by
    have hfront : Entries.field? (languageFront s m) "parser" =
        (Entries.field? m "parser").map (s.shared.member · "definition") := by
      rw [field?_languageFront]
      rfl
    rw [field?_ownLanguage, ← hfront]
    cases parserOptions? s m <;> simp [hoistedOptions]
  hoisted := by
    intro key hkey
    have hne : "parserOptions" ≠ key := by
      rintro rfl
      simp [hoistedOptions] at hkey
    rw [field?_ownLanguage, field?_languageFront_options s m (List.mem_cons_of_mem _ hkey)]
    cases parserOptions? s m <;> simp [hne, hkey]
  split := by
    intro options h
    rw [Grouped, field?_ownLanguage, h, field?_languageFront_options s m (by simp)]
    simp [hoistedOptions]
  kept := by
    intro h
    rw [field?_ownLanguage, h, field?_languageFront_options s m (by simp)]
    rfl
  keys := keys_ownLanguage s m

theorem languageFront_eq_nil : languageFront s m = [] ↔
    Entries.field? m "globals" = none ∧ Entries.field? m "parser" = none := by
  have hentry : ∀ key, languageEntry s m key = [] ↔ Entries.field? m key = none := by
    intro key
    unfold languageEntry
    cases Entries.field? m key <;> simp
  rw [languageFront, List.append_eq_nil_iff, hentry, hentry]

/-- Parser options that leave nothing behind are empty. -/
theorem options_eq_nil {options : Entries} :
    remaining options = [] ∧ selected hoistedOptions options = [] ↔ options = [] := by
  constructor
  · rintro ⟨hremaining, hselected⟩
    rw [List.eq_nil_iff_forall_not_mem]
    intro e he
    have hhoisted : ∃ key ∈ hoistedOptions, e.1 = .str key := by
      have := List.filter_eq_nil_iff.mp hremaining e he
      simpa using this
    obtain ⟨key, hkey, hstr⟩ := hhoisted
    have hnone : Entries.field? (selected hoistedOptions options) key = none := by rw [hselected]; rfl
    rw [field?_selected, if_pos hkey] at hnone
    exact Entries.field?_eq_none.mp hnone e he hstr
  · rintro rfl
    exact ⟨rfl, rfl⟩

theorem ownLanguage_eq_nil : ownLanguage s m = [] ↔
    Entries.field? m "globals" = none ∧ Entries.field? m "parser" = none ∧
      (Entries.field? m "parserOptions" = none ∨ parserOptions? s m = some []) := by
  rw [ownLanguage_eq, List.append_eq_nil_iff, languageFront_eq_nil, and_assoc]
  refine and_congr_right fun _ => and_congr_right fun _ => ?_
  cases h : parserOptions? s m with
  | some options =>
    have hpresent : Entries.field? m "parserOptions" ≠ none := by
      intro hnone
      rw [parserOptions?, Entries.at, hnone] at h
      cases h
    have hgroup : group "parserOptions" (remaining options) = [] ↔ remaining options = [] := by
      unfold group
      split <;> simp_all
    simp only [List.append_eq_nil_iff, hgroup, options_eq_nil, hpresent, Option.some.injEq, false_or]
  | none => cases Entries.field? m "parserOptions" <;> simp [Node.optionalEntry]

/-! ## Parser options put together again -/

/-- The entries of a mapping under a key, none where there is no mapping. -/
def partAt (own : Entries) (key : String) : Entries :=
  match Entries.field? own key with
  | some (.mapping part) => part
  | _ => []

/-- The parser options that an own entry was made from, with the options of the
language in front. -/
def rebuilt (own : Entries) : Entries :=
  selected hoistedOptions (partAt own "languageOptions") ++
    partAt (partAt own "languageOptions") "parserOptions"

theorem Grouped.partAt {key : String} {part : Entries} (h : Grouped own key part) :
    partAt own key = part := by
  unfold Conversion.partAt
  rw [h]
  cases part <;> rfl

theorem selected_congr {keys : List String} {m m' : Entries}
    (h : ∀ key ∈ keys, Entries.field? m key = Entries.field? m' key) : selected keys m = selected keys m' := by
  induction keys with
  | nil => rfl
  | cons key rest ih =>
    rw [selected_cons, selected_cons, h key (by simp), ih fun key hkey => h key (List.mem_cons_of_mem _ hkey)]

theorem rebuilt_eq {language options : Entries} (hown : Grouped own "languageOptions" language)
    (hlanguage : LanguageOf s m language) (h : parserOptions? s m = some options) :
    rebuilt own = selected hoistedOptions options ++ remaining options := by
  have hfields : ∀ key ∈ hoistedOptions, Entries.field? language key = Entries.field? options key := by
    intro key hkey
    rw [hlanguage.hoisted key hkey, h]
    rfl
  rw [rebuilt, hown.partAt, (hlanguage.split options h).partAt, selected_congr hfields]

/-- The two options are taken out one after the other. -/
theorem selected_remaining (options : Entries) :
    selected hoistedOptions options ++ remaining options =
      Node.optionalEntry "ecmaVersion" (Entries.field? options "ecmaVersion") ++
        (Node.optionalEntry "sourceType"
            (Entries.field? (options.erase (.str "ecmaVersion")) "sourceType") ++
          (options.erase (.str "ecmaVersion")).erase (.str "sourceType")) := by
  have htype : Entries.field? (options.erase (.str "ecmaVersion")) "sourceType" =
      Entries.field? options "sourceType" := Entries.get?_erase_other (by simp) options
  rw [htype, ← erase_hoisted, ← List.append_assoc, hoistedOptions, selected_cons, selected_cons]
  simp [selected]

theorem get?_rebuilt (options : Entries) (key : Value) :
    Entries.get? (selected hoistedOptions options ++ remaining options) key = Entries.get? options key := by
  have happend : ∀ front rest rest' : Entries, Entries.get? rest key = Entries.get? rest' key →
      Entries.get? (front ++ rest) key = Entries.get? (front ++ rest') key := by
    intro front rest rest' h
    simp only [Entries.get?, List.find?_append, Option.map_or] at h ⊢
    rw [h]
  rw [selected_remaining, happend _ _ _ (Entries.get?_front _ _ _), Entries.get?_front]

theorem rebuilt_perm {options : Entries} (h : options.Distinct) :
    (selected hoistedOptions options ++ remaining options).Perm options := by
  rw [selected_remaining]
  exact ((Entries.front_perm (h.erase _) _).append_left _).trans (Entries.front_perm h _)

/-- Beside the two options, the others stand in their order. -/
theorem remaining_rebuilt (options : Entries) :
    remaining (selected hoistedOptions options ++ remaining options) = remaining options := by
  have hselected : remaining (selected hoistedOptions options) = [] := by
    rw [remaining, List.filter_eq_nil_iff]
    intro e he
    obtain ⟨key, hkey, hentry⟩ := List.mem_filterMap.mp he
    obtain ⟨v, -, rfl⟩ := Option.map_eq_some_iff.mp hentry
    simpa using hkey
  rw [remaining, List.filter_append]
  show remaining (selected hoistedOptions options) ++ remaining (remaining options) = _
  rw [hselected, List.nil_append, remaining, remaining, List.filter_filter]
  simp

/-! ## The own entry -/

/-- The keys that an own entry can have, in their order. -/
def ownKeys : List String :=
  ["settings", "rules", "processor", "languageOptions", "linterOptions", "files", "ignores", "plugins"]

/-- The options of the linter. -/
def linterKeys : List String := ["noInlineConfig", "reportUnusedDisableDirectives"]

/-- An entry has all options of a node, each of them once. -/
structure OwnEntry (s : Setting) (m own : Entries) : Prop where
  verbatim : ∀ key ∈ ["settings", "rules", "processor"], Entries.field? own key = Entries.field? m key
  linter : ∃ linter, Grouped own "linterOptions" linter ∧
    (∀ key ∈ linterKeys, Entries.field? linter key = Entries.field? m key) ∧
    (Entries.keys linter).Sublist (linterKeys.map .str)
  language : ∃ language, Grouped own "languageOptions" language ∧ LanguageOf s m language
  speechless : Entries.field? own "languageOptions" = none ↔
    Entries.field? m "globals" = none ∧ Entries.field? m "parser" = none ∧
      (Entries.field? m "parserOptions" = none ∨ parserOptions? s m = some [])
  keys : (Entries.keys own).Sublist (ownKeys.map .str)
  restored : ∀ options, parserOptions? s m = some options →
    (∀ key, Entries.get? (rebuilt own) key = Entries.get? options key) ∧
    remaining (rebuilt own) = remaining options ∧
    (options.Distinct → (rebuilt own).Perm options)

theorem keys_ownForm (s : Setting) (m : Entries) : (Entries.keys (ownForm s m)).Sublist (ownKeys.map .str) := by
  simp only [ownForm, withPatterns, ownOptions, Entries.keys, List.map_append]
  show List.Sublist _ (((((["settings", "rules", "processor"].map Value.str ++
    ["languageOptions"].map Value.str) ++ ["linterOptions"].map Value.str) ++
    ["files"].map Value.str) ++ ["ignores"].map Value.str) ++ ["plugins"].map Value.str)
  exact (((((keys_selected _ m).append (keys_group _ _)).append (keys_group _ _)).append
    (keys_optionalEntry _ _)).append (keys_optionalEntry _ _)).append (keys_optionalEntry _ _)

theorem ownEntry_ownForm (s : Setting) (m : Entries) : OwnEntry s m (ownForm s m) := by
  have field : ∀ key, "files" ≠ key → "ignores" ≠ key → "plugins" ≠ key →
      Entries.field? (ownForm s m) key = Entries.field? (ownOptions s m) key := by
    intro key hfiles hignores hplugins
    simp only [ownForm, withPatterns, Entries.field?_append, Entries.field?_optionalEntry,
      if_neg hfiles, if_neg hignores, if_neg hplugins, Option.or_none]
  have hlinter : Grouped (ownForm s m) "linterOptions" (linterOptions m) := by
    rw [Grouped, field _ (by decide) (by decide) (by decide), field?_ownOptions]
    rfl
  have hgroup : Grouped (ownForm s m) "languageOptions" (ownLanguage s m) := by
    rw [Grouped, field _ (by decide) (by decide) (by decide), field?_ownOptions]
    simp
  have hlanguage := languageOf_ownLanguage s m
  refine ⟨?_, ⟨_, hlinter, ?_, keys_selected _ m⟩, ⟨_, hgroup, hlanguage⟩, ?_, keys_ownForm s m, ?_⟩
  · intro key hkey
    simp only [List.mem_cons, List.not_mem_nil, or_false] at hkey
    rcases hkey with rfl | rfl | rfl <;>
      rw [field _ (by decide) (by decide) (by decide), field?_ownOptions] <;> simp
  · intro key hkey
    rw [linterOptions, field?_selected]
    exact if_pos hkey
  · rw [hgroup, ← ownLanguage_eq_nil]
    cases ownLanguage s m <;> simp
  · intro options h
    rw [rebuilt_eq hgroup hlanguage h]
    exact ⟨get?_rebuilt options, remaining_rebuilt options, rebuilt_perm⟩

/-- A node that asks for no whole set of rules ends with the item of an entry
that loses none of its options and has none of them twice. There is no such item
when the entry would be empty. -/
theorem convert_ownEntry {node : Value} (hm : s.shared.view node = .mapping m)
    (hall : asksFor s m allRules = false) (hrec : asksFor s m recommendedRules = false) :
    (Legible s node → (∃ items, (convert s node).result = .ok items) ∨
      ∃ cycle, (convert s node).result = .error (.problem (.environmentCycle cycle))) ∧
    ∀ items, (convert s node).result = .ok items →
      ∃ beside own, items = beside ++ entryItems own ∧ OwnEntry s m own := by
  refine ⟨convert_legible, ?_⟩
  intro items h
  obtain ⟨beside, hitems⟩ := convert_form hm hall hrec h
  exact ⟨beside, ownForm s m, hitems, ownEntry_ownForm s m⟩

/-! A node with options of the parser of both kinds. -/

def optionsEntries : Entries := [
  (.str "rules", .mapping [(.str "semi", .int 2)]),
  (.str "parser", .object .dependency [("id", .str "p"), ("definition", .str "parse")]),
  (.str "parserOptions", .mapping [(.str "sourceType", .str "module"),
    (.str "ecmaFeatures", .mapping [(.str "jsx", .bool true)]), (.str "ecmaVersion", .int 2020)]),
  (.str "noInlineConfig", .bool true)]

def optionsItem : Entries := [
  (.str "rules", .mapping [(.str "semi", .int 2)]),
  (.str "languageOptions", .mapping [
    (.str "parser", .str "parse"),
    (.str "parserOptions", .mapping [(.str "ecmaFeatures", .mapping [(.str "jsx", .bool true)])]),
    (.str "ecmaVersion", .int 2020), (.str "sourceType", .str "module")]),
  (.str "linterOptions", .mapping [(.str "noInlineConfig", .bool true)])]

theorem wellShaped_options : WellShaped sampleSetting (.mapping optionsEntries) :=
  .of_no_steps rfl (by decide) rfl

theorem convert_ownEntry_options : Legible sampleSetting (.mapping optionsEntries) ∧
    (convert sampleSetting (.mapping optionsEntries)).result = .ok [item optionsItem] ∧
    ∃ beside own, [item optionsItem] = beside ++ entryItems own ∧ OwnEntry sampleSetting optionsEntries own := by
  have hm : sampleSetting.shared.view (.mapping optionsEntries) = .mapping optionsEntries := rfl
  have hr : (convert sampleSetting (.mapping optionsEntries)).result = .ok [item optionsItem] := rfl
  obtain ⟨-, hown⟩ := convert_ownEntry hm rfl rfl
  exact ⟨wellShaped_options.legible, hr, hown _ hr⟩

end Conversion

end Cascade
