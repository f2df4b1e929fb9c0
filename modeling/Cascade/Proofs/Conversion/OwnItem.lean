import Cascade.Node
import Cascade.Proofs.Conversion.Parts

/-! # Which files the item of a node applies to

The items of a node end with its own one. Of its criteria only the last pair of
patterns gets into that item for sure: where the pair rejects a file, the item
does not apply to it. The items beside it have no criteria. -/
namespace Cascade

/-- Whether a pair of patterns keeps a file out, given the patterns that match it. -/
def PatternPair.rejects (accepts : String → Bool) (p : PatternPair) : Bool :=
  p.includes.any (fun patterns => !patterns.any accepts) ||
    p.excludes.any fun patterns => patterns.any accepts

theorem Shared.text_str (store : Shared) (name : String) : store.text (.str name) = name := by
  have : ∀ depth, store.expandTo depth (.str name) = .str name := fun depth => by
    cases depth with
    | zero => rfl
    | succ depth => simp [Shared.expandTo, Value.graft]
  rw [Shared.text, Shared.expand, this]
  rfl

namespace Conversion

/-- Whether a pattern matches a file. In a group all patterns have to, and a mark
of negation turns a pattern around. -/
def matchesPattern (accepts : String → Bool) : Value → Bool
  | .str pattern => accepts pattern
  | .list group => group.all fun v => match v with
    | .str pattern =>
      if Text.startsWith pattern "!" then !accepts (Text.drop 1 pattern) else accepts pattern
    | _ => false
  | _ => false

/-- Whether an item of a flat configuration applies to a file, given the patterns
that match the file. The name of a set of rules applies to every file. -/
def applies (accepts : String → Bool) : Value → Bool
  | .mapping m =>
    (match Entries.field? m "files" with
      | some (.list patterns) => patterns.any (matchesPattern accepts)
      | some _ => false
      | none => true) &&
    !(match Entries.field? m "ignores" with
      | some (.list patterns) => patterns.any (matchesPattern accepts)
      | _ => false)
  | _ => true

variable {s : Setting} {m : Entries} {accepts : String → Bool}

/-- The own item of a node, if it has one and asks for no whole set of rules. -/
def ownPart (s : Setting) (m : Entries) : List Value :=
  if asksFor s m allRules || asksFor s m recommendedRules then [] else ownItems s m

/-! ## The own item comes last -/

theorem addPlugins_definitions {plugins : Entries} {c c' : Contribution}
    (h : (plugins.foldlM (addPlugin s) c).result = .ok c') : c'.definitions =
      plugins.foldl (fun d p => Entries.set d p.1 (s.shared.member p.2 "definition")) c.definitions := by
  induction plugins generalizing c with
  | nil => cases h; rfl
  | cons p rest ih =>
    rw [List.foldlM_cons, Logged.result_bind] at h
    obtain ⟨next, hnext, h⟩ := bind_eq_ok.mp h
    have hp : next.definitions = Entries.set c.definitions p.1 (s.shared.member p.2 "definition") := by
      unfold addPlugin at hnext
      simp only [Logged.result_bind] at hnext
      obtain ⟨_, -, hnext⟩ := bind_eq_ok.mp hnext
      obtain ⟨_, -, hnext⟩ := bind_eq_ok.mp hnext
      obtain ⟨_, -, hnext⟩ := bind_eq_ok.mp hnext
      cases hnext
      rfl
    rw [ih h, hp, List.foldl_cons]

theorem contribution_definitions {items : Precedence Value} {c : Option Contribution}
    (h : (contribution s m items).result = .ok c) :
    c.map Contribution.definitions =
      if s.shared.truthy (m.at "plugins") then some (definitionsOf s m) else none := by
  unfold contribution at h
  by_cases ht : s.shared.truthy (m.at "plugins") = true
  · simp only [ht, if_true, Logged.result_bind] at h ⊢
    obtain ⟨_, -, h⟩ := bind_eq_ok.mp h
    obtain ⟨_, -, h⟩ := bind_eq_ok.mp h
    obtain ⟨entries, hentries, h⟩ := bind_eq_ok.mp h
    obtain ⟨c', hc', h⟩ := bind_eq_ok.mp h
    cases h
    have hp : pluginsOf s m = entries := by
      rw [pluginsOf, Shared.entriesIn, Shared.entriesOrNone, if_pos ht,
        mapError_eq_ok.mp hentries]
      rfl
    rw [Option.map_some, addPlugins_definitions hc', definitionsOf, hp]
  · simp only [ht] at h ⊢
    cases h
    rfl

/-- The options of a node that go into its item before its patterns and plugins do. -/
def ownOptions (s : Setting) (m : Entries) : Entries :=
  selected ["settings", "rules", "processor"] m ++
    group "languageOptions" (hoist (["globals", "parser", "parserOptions"].flatMap (languageEntry s m))) ++
    group "linterOptions" (linterOptions m)

theorem ownEntries_eq {restricted : Entries} {c : Option Contribution}
    (h : applyCriteria s (ownOptions s m) (m.at "criteria") = .ok restricted)
    (hc : c.map Contribution.definitions =
      if s.shared.truthy (m.at "plugins") then some (definitionsOf s m) else none) :
    ownEntries s m = match c with
      | some c => Entries.setField restricted "plugins" (.mapping c.definitions)
      | none => restricted := by
  unfold ownEntries
  dsimp only
  rw [← ownOptions, h]
  cases c with
  | none =>
    by_cases ht : s.shared.truthy (m.at "plugins") = true
    · rw [if_pos ht] at hc
      cases hc
    · rw [if_neg ht]
      rfl
  | some c =>
    by_cases ht : s.shared.truthy (m.at "plugins") = true
    · rw [if_pos ht, Option.map_some, Option.some.injEq] at hc
      rw [if_pos ht]
      exact congrArg (fun d => Entries.setField restricted "plugins" (.mapping d)) hc.symm
    · rw [if_neg ht] at hc
      cases hc

/-- The items of an ordinary node end with its own one. -/
theorem ordinary_own {expand : Value → Value → Logged (Precedence Value)} {items : Precedence Value}
    (h : (ordinary s expand m).result = .ok items) : ∃ beside, items.items = beside ++ ownItems s m := by
  unfold ordinary at h
  rw [Logged.result_bind, languageOptions_result, ok_bind, Logged.result_bind] at h
  obtain ⟨ignored, -, h⟩ := bind_eq_ok.mp h
  rw [Logged.result_bind] at h
  obtain ⟨restricted, hr, h⟩ := bind_eq_ok.mp h
  rw [Logged.result_bind] at h
  obtain ⟨plugins, hplugins, h⟩ := bind_eq_ok.mp h
  rw [Logged.result_ofFault, mapError_eq_ok] at hr
  have hentries := ownEntries_eq hr (contribution_definitions hplugins)
  have closing : ∀ (r : Except Failure (Precedence Value)), (r >>= fun inner =>
      .ok (if (ownEntries s m).isEmpty then inner else inner.pushBack (item (ownEntries s m)))) = .ok items →
      ∃ beside, items.items = beside ++ ownItems s m := by
    intro r hr
    obtain ⟨inner, -, hitems⟩ := bind_eq_ok.mp hr
    cases hitems
    refine ⟨inner.items, ?_⟩
    rw [ownItems]
    cases (ownEntries s m).isEmpty <;> simp [Precedence.pushBack]
  cases plugins with
  | none =>
    dsimp only at h hentries
    rw [Logged.result_bind] at h
    obtain ⟨env, -, h⟩ := bind_eq_ok.mp h
    rw [Logged.result_bind, ← hentries] at h
    exact closing _ h
  | some c =>
    dsimp only at h hentries
    rw [Logged.result_bind] at h
    obtain ⟨env, -, h⟩ := bind_eq_ok.mp h
    rw [Logged.result_bind, ← hentries] at h
    exact closing _ h

theorem sentinel_mappable {name : Option String} (h : (sentinel s m).result = .ok name) :
    s.shared.Mappable (m.at "settings") := by
  rw [sentinel, Logged.result_bind] at h
  obtain ⟨settings, hs, -⟩ := bind_eq_ok.mp h
  exact ⟨settings, mapError_eq_ok.mp hs⟩

/-- A node that asks for no whole set of rules is converted as an ordinary one. -/
theorem convert_ordinary {node : Value} (hm : s.shared.view node = .mapping m)
    (hall : asksFor s m allRules = false) (hrec : asksFor s m recommendedRules = false) {items : List Value}
    (h : (convert s node).result = .ok items) :
    ∃ expand inner, (ordinary s expand m).result = .ok inner ∧ items = inner.items := by
  rw [convert, Logged.result_bind] at h
  obtain ⟨inner, hinner, hitems⟩ := bind_eq_ok.mp h
  cases hitems
  rw [chainBound, ofNode, Logged.result_bind, Shared.entriesOf, hm] at hinner
  obtain ⟨_, heq, hinner⟩ := bind_eq_ok.mp hinner
  cases heq
  rw [Logged.result_bind] at hinner
  obtain ⟨name, hname, hinner⟩ := bind_eq_ok.mp hinner
  rw [sentinel_result (sentinel_mappable hname), hall, hrec] at hname
  cases hname
  exact ⟨_, inner, hinner, rfl⟩

/-- The items of a node end with its own one. -/
theorem convert_own {node : Value} {items : List Value} (hm : s.shared.view node = .mapping m)
    (h : (convert s node).result = .ok items) : ∃ beside, items = beside ++ ownPart s m := by
  unfold ownPart
  by_cases hall : asksFor s m allRules = true
  · exact ⟨items, by simp [hall]⟩
  by_cases hrec : asksFor s m recommendedRules = true
  · exact ⟨items, by simp [hrec]⟩
  have hall := Bool.eq_false_iff.mpr hall
  have hrec := Bool.eq_false_iff.mpr hrec
  obtain ⟨expand, inner, hinner, rfl⟩ := convert_ordinary hm hall hrec h
  rw [hall, hrec]
  exact ordinary_own hinner

/-! ## What a pair of patterns does to it -/

/-- An item under a pair of patterns. -/
def restrict (own : Entries) : PatternPair → Entries
  | ⟨none, none⟩ => own
  | ⟨none, some excludes⟩ =>
    Entries.setField own "files" (.list [.list (excludes.map fun p => .str ("!" ++ p))])
  | ⟨some includes, none⟩ => Entries.setField own "files" (.list (includes.map .str))
  | ⟨some includes, some excludes⟩ =>
    Entries.setField (Entries.setField own "files" (.list (includes.map .str))) "ignores"
      (.list (excludes.map .str))

theorem applyPair_value (own : Entries) (p : PatternPair) :
    applyPair s own p.value = .ok (restrict own p) := by
  obtain ⟨includes, excludes⟩ := p
  cases includes with
  | none =>
    cases excludes with
    | none => rfl
    | some excludes =>
      show Except.ok (Entries.setField own "files" (.list [.list ((excludes.map Value.str).map
        fun e => Value.str ("!" ++ s.shared.text e))])) = _
      rw [List.map_map]
      exact congrArg (fun ps => Except.ok (Entries.setField own "files" (.list [.list ps])))
        (List.map_congr_left fun p _ => congrArg Value.str (congrArg ("!" ++ ·) (s.shared.text_str p)))
  | some includes => cases excludes <;> rfl

theorem applyCriteria_value (own : Entries) (c : Criteria) :
    applyCriteria s own c.value = .ok (c.pairs.foldl restrict own) := by
  have fold : ∀ (pairs : List PatternPair) (own : Entries),
      (pairs.map PatternPair.value).foldlM (applyPair s) own = .ok (pairs.foldl restrict own) := by
    intro pairs
    induction pairs with
    | nil => exact fun own => rfl
    | cons p rest ih =>
      intro own
      rw [List.map_cons, List.foldlM_cons, applyPair_value, ok_bind, ih]
      rfl
  obtain ⟨pairs, base⟩ := c
  cases pairs with
  | nil => rfl
  | cons p rest => exact fold (p :: rest) own

theorem any_matchesPattern (patterns : List String) :
    (patterns.map Value.str).any (matchesPattern accepts) = patterns.any accepts := by
  rw [List.any_map]
  rfl

theorem matchesPattern_negated (patterns : List String) :
    matchesPattern accepts (.list (patterns.map fun p => .str ("!" ++ p))) = !patterns.any accepts := by
  have hdrop : ∀ p : String, Text.drop 1 ("!" ++ p) = p := fun p => by simp [Text.drop]
  have hstarts : ∀ p : String, Text.startsWith ("!" ++ p) "!" = true := fun p => by
    simp [Text.startsWith]
  rw [matchesPattern, List.all_map, List.not_any_eq_all_not]
  exact congrArg patterns.all (funext fun p => by simp [hdrop, hstarts])

/-- Only the patterns of an item decide which files it applies to. -/
theorem applies_eq (m : Entries) : applies accepts (item m) =
    ((match Entries.field? m "files" with
      | some (.list patterns) => patterns.any (matchesPattern accepts)
      | some _ => false
      | none => true) &&
    !(match Entries.field? m "ignores" with
      | some (.list patterns) => patterns.any (matchesPattern accepts)
      | _ => false)) := rfl

/-- Under a pair of patterns that rejects a file, an item does not apply to it. -/
theorem applies_restrict {own : Entries} {p : PatternPair} (h : p.rejects accepts = true) :
    applies accepts (item (restrict own p)) = false := by
  obtain ⟨includes, excludes⟩ := p
  rw [applies_eq]
  cases includes with
  | none =>
    cases excludes with
    | none => cases h
    | some excludes =>
      have he : excludes.any accepts = true := by simpa [PatternPair.rejects] using h
      simp [restrict, Entries.field?_setField, matchesPattern_negated, he]
  | some includes =>
    cases excludes with
    | none =>
      have hi : includes.any accepts = false := by simpa [PatternPair.rejects] using h
      simp only [restrict, Entries.field?_setField, if_true, any_matchesPattern, hi, Bool.false_and]
    | some excludes =>
      have hr : includes.any accepts = false ∨ excludes.any accepts = true := by
        simpa [PatternPair.rejects] using h
      have hne : ¬ "ignores" = "files" := by decide
      simp only [restrict, Entries.field?_setField, if_true, if_neg hne, any_matchesPattern]
      rcases hr with hi | he
      · rw [hi, Bool.false_and]
      · rw [he, Bool.not_true, Bool.and_false]

/-- Where the last pair of a node's patterns rejects a file, the node's own item
does not apply to it. -/
theorem ownPart_rejected {c : Criteria} (hc : m.at "criteria" = c.value) {last : PatternPair}
    (hl : c.pairs.getLast? = some last) (hr : last.rejects accepts = true) {v : Value}
    (hv : v ∈ ownPart s m) : applies accepts v = false := by
  have hitem : v = item (ownEntries s m) := by
    rw [ownPart] at hv
    split at hv
    · cases hv
    · rw [ownItems] at hv
      split at hv
      · cases hv
      · exact List.mem_singleton.mp hv
  obtain ⟨outer, hpairs⟩ := List.getLast?_eq_some_iff.mp hl
  have hrestricted : applyCriteria s (ownOptions s m) (m.at "criteria") =
      .ok (restrict (outer.foldl restrict (ownOptions s m)) last) := by
    rw [hc, applyCriteria_value, hpairs, List.foldl_append]
    rfl
  have happly : applies accepts (item (ownEntries s m)) =
      applies accepts (item (restrict (outer.foldl restrict (ownOptions s m)) last)) := by
    have hown : ownEntries s m = if s.shared.truthy (m.at "plugins") then
        Entries.setField (restrict (outer.foldl restrict (ownOptions s m)) last) "plugins"
          (.mapping (definitionsOf s m))
        else restrict (outer.foldl restrict (ownOptions s m)) last := by
      unfold ownEntries
      dsimp only
      rw [← ownOptions, hrestricted]
      rfl
    rw [hown]
    split
    · simp [applies_eq, Entries.field?_setField]
    · rfl
  rw [hitem, happly, applies_restrict hr]

end Conversion

end Cascade
