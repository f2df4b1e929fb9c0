import Cascade.Proofs.Conversion.Cycle
import Cascade.Proofs.Conversion.OwnForm

/-! # From a list of pairs to one entry

The criteria of a node are a list of pairs of patterns, of which all have to
match; an entry has room for one pair. Each of its two sides is the last one
that the list has for it, and the two may come from different pairs. Nothing
else of a conversion depends on the criteria. -/
namespace Cascade.Conversion

variable {s : Setting} {m m' own : Entries} {node node' : Value}

/-! ## The last pairs -/

/-- Whether a pair has a side. -/
abbrev Has (s : Setting) (side : String) (pair : Value) : Prop := s.shared.member pair side ≠ .null

/-- Whether a pair says anything. -/
abbrev Says (s : Setting) (pair : Value) : Prop := Has s "includes" pair ∨ Has s "excludes" pair

/-- The patterns that a side of a pair lists. -/
abbrev listed (s : Setting) (side : String) (pair : Value) : List Value :=
  s.shared.itemsIn (s.shared.member pair side)

/-- The patterns of an entry that a list of pairs gives. -/
structure Patterned (s : Setting) (pairs : List Value) (own : Entries) : Prop where
  files_iff : (∃ files, Entries.field? own "files" = some files) ↔ ∃ pair ∈ pairs, Says s pair
  files : ∀ before pair after, pairs = before ++ pair :: after →
    (∀ later ∈ after, ¬ Says s later) →
    (Has s "includes" pair → Entries.field? own "files" = some (.list (listed s "includes" pair))) ∧
    (¬ Has s "includes" pair → Has s "excludes" pair → Entries.field? own "files" =
      some (.list [.list ((listed s "excludes" pair).map fun e => .str ("!" ++ s.shared.text e))]))
  ignores_iff : (∃ ignores, Entries.field? own "ignores" = some ignores) ↔
    ∃ pair ∈ pairs, Has s "includes" pair ∧ Has s "excludes" pair
  ignores : ∀ before pair after, pairs = before ++ pair :: after →
    (∀ later ∈ after, ¬ (Has s "includes" later ∧ Has s "excludes" later)) →
    Has s "includes" pair → Has s "excludes" pair →
    Entries.field? own "ignores" = some (.list (listed s "excludes" pair))

theorem side?_eq (side : String) (pair : Value) :
    side? s side pair = if Has s side pair then some (listed s side pair) else none := by
  by_cases h : s.shared.member pair side = .null
  · rw [side?_null h, if_neg (not_not_intro h)]
  · rw [if_pos h, side?]
    split
    · rename_i hnull
      exact absurd hnull h
    · rfl

theorem filesOf_eq (pair : Value) : filesOf s pair =
    if Has s "includes" pair then some (.list (listed s "includes" pair))
    else if Has s "excludes" pair then
      some (.list [.list ((listed s "excludes" pair).map fun e => .str ("!" ++ s.shared.text e))])
    else none := by
  rw [filesOf, side?_eq, side?_eq]
  by_cases hi : Has s "includes" pair
  · simp only [if_pos hi]
  · by_cases he : Has s "excludes" pair
    · simp only [if_neg hi, if_pos he]
    · simp only [if_neg hi, if_neg he]

theorem ignoresOf_eq (pair : Value) : ignoresOf s pair =
    if Has s "includes" pair ∧ Has s "excludes" pair then some (.list (listed s "excludes" pair)) else none := by
  rw [ignoresOf, side?_eq, side?_eq]
  by_cases hi : Has s "includes" pair
  · by_cases he : Has s "excludes" pair
    · rw [if_pos hi, if_pos he, if_pos ⟨hi, he⟩]
    · rw [if_pos hi, if_neg he, if_neg (fun h : _ ∧ _ => he h.2)]
  · rw [if_neg hi, if_neg (fun h : _ ∧ _ => hi h.1)]

theorem exists_filesOf {pair : Value} : (∃ files, filesOf s pair = some files) ↔ Says s pair := by
  rw [filesOf_eq]
  by_cases hi : Has s "includes" pair
  · rw [if_pos hi]
    exact ⟨fun _ => .inl hi, fun _ => ⟨_, rfl⟩⟩
  · by_cases he : Has s "excludes" pair
    · rw [if_neg hi, if_pos he]
      exact ⟨fun _ => .inr he, fun _ => ⟨_, rfl⟩⟩
    · rw [if_neg hi, if_neg he]
      constructor
      · rintro ⟨files, hfiles⟩
        cases hfiles
      · intro h
        exact absurd h (not_or.mpr ⟨hi, he⟩)

theorem exists_ignoresOf {pair : Value} : (∃ ignores, ignoresOf s pair = some ignores) ↔
    Has s "includes" pair ∧ Has s "excludes" pair := by
  rw [ignoresOf_eq]
  split <;> simp_all

section
variable {α β : Type} {f : α → Option β}

/-- The last element that has a value decides. -/
theorem getLast?_filterMap_of_last {before after : List α} {a : α} {b : β} (h : f a = some b)
    (hafter : ∀ c ∈ after, ¬ ∃ b, f c = some b) :
    ((before ++ a :: after).filterMap f).getLast? = some b := by
  have hnone : after.filterMap f = [] := by
    rw [List.filterMap_eq_nil_iff]
    exact fun c hc => Option.eq_none_iff_forall_ne_some.mpr fun b hb => hafter c hc ⟨b, hb⟩
  rw [List.filterMap_append, List.filterMap_cons_some h, hnone, List.getLast?_concat]

theorem exists_getLast?_filterMap {l : List α} :
    (∃ b, (l.filterMap f).getLast? = some b) ↔ ∃ a ∈ l, ∃ b, f a = some b := by
  constructor
  · rintro ⟨b, hb⟩
    obtain ⟨a, ha, hab⟩ := List.mem_filterMap.mp (List.mem_of_getLast? hb)
    exact ⟨a, ha, b, hab⟩
  · rintro ⟨a, ha, b, hab⟩
    have hne : l.filterMap f ≠ [] := List.ne_nil_of_mem (List.mem_filterMap.mpr ⟨a, ha, hab⟩)
    exact ⟨_, List.getLast?_eq_some_getLast hne⟩

end

theorem patterned_of_fields {pairs : List Value}
    (hfiles : Entries.field? own "files" = filesUnder s pairs)
    (hignores : Entries.field? own "ignores" = ignoresUnder s pairs) : Patterned s pairs own := by
  refine ⟨?_, ?_, ?_, ?_⟩
  · rw [hfiles, filesUnder, exists_getLast?_filterMap]
    exact exists_congr fun pair => and_congr_right fun _ => exists_filesOf
  · intro before pair after hpairs hafter
    subst hpairs
    have hlast : ∀ {v}, filesOf s pair = some v → Entries.field? own "files" = some v := by
      intro v hv
      rw [hfiles, filesUnder]
      exact getLast?_filterMap_of_last hv fun later hl h => hafter later hl (exists_filesOf.mp h)
    refine ⟨fun hi => hlast ?_, fun hi he => hlast ?_⟩
    · rw [filesOf_eq, if_pos hi]
    · rw [filesOf_eq, if_neg hi, if_pos he]
  · rw [hignores, ignoresUnder, exists_getLast?_filterMap]
    exact exists_congr fun pair => and_congr_right fun _ => exists_ignoresOf
  · intro before pair after hpairs hafter hi he
    subst hpairs
    rw [hignores, ignoresUnder]
    refine getLast?_filterMap_of_last ?_ fun later hl h => hafter later hl (exists_ignoresOf.mp h)
    rw [ignoresOf_eq, if_pos ⟨hi, he⟩]

theorem field?_ownForm_files (s : Setting) (m : Entries) :
    Entries.field? (ownForm s m) "files" = filesUnder s (pairsOf s (m.at "criteria")) := by
  have h : Entries.field? (ownOptions s m) "files" = none := by rw [field?_ownOptions]; rfl
  simp [ownForm, withPatterns, Entries.field?_append, Entries.field?_optionalEntry, h]

theorem field?_ownForm_ignores (s : Setting) (m : Entries) :
    Entries.field? (ownForm s m) "ignores" = ignoresUnder s (pairsOf s (m.at "criteria")) := by
  have h : Entries.field? (ownOptions s m) "ignores" = none := by rw [field?_ownOptions]; rfl
  simp [ownForm, withPatterns, Entries.field?_append, Entries.field?_optionalEntry, h]

theorem patterned_ownForm (s : Setting) (m : Entries) :
    Patterned s (pairsOf s (m.at "criteria")) (ownForm s m) :=
  patterned_of_fields (field?_ownForm_files s m) (field?_ownForm_ignores s m)

/-! ## Nothing else depends on them -/

/-- An entry without its patterns. -/
def withoutPatterns (own : Entries) : Entries := (own.erase (.str "files")).erase (.str "ignores")

/-- Two nodes that differ in their criteria alone. -/
def SameBeside (m m' : Entries) : Prop :=
  ∀ key, key ≠ "criteria" → Entries.field? m' key = Entries.field? m key

theorem SameBeside.at (h : SameBeside m m') {key : String} (hkey : key ≠ "criteria") :
    m'.at key = m.at key := by
  rw [Entries.at, Entries.at, h key hkey]

theorem SameBeside.asksFor (h : SameBeside m m') (rules : String) :
    asksFor s m' rules = asksFor s m rules := by
  rw [Conversion.asksFor, Conversion.asksFor, h.at (by decide)]

theorem SameBeside.pluginsOf (h : SameBeside m m') : pluginsOf s m' = pluginsOf s m := by
  rw [Conversion.pluginsOf, Conversion.pluginsOf, h.at (by decide)]

theorem SameBeside.namedEnvironments (h : SameBeside m m') :
    namedEnvironments s m' = namedEnvironments s m := by
  rw [Conversion.namedEnvironments, Conversion.namedEnvironments, h.pluginsOf]

theorem SameBeside.envOf (h : SameBeside m m') : envOf s m' = envOf s m := by
  rw [Conversion.envOf, Conversion.envOf, h.at (by decide)]

theorem SameBeside.front (h : SameBeside m m') : front s m' = front s m := by
  rw [Conversion.front, Conversion.front, processorItems, processorItems, ignoreItems, ignoreItems,
    h.pluginsOf, h.at (by decide)]

theorem SameBeside.selected (h : SameBeside m m') {keys : List String} (hkeys : "criteria" ∉ keys) :
    selected keys m' = selected keys m := by
  induction keys with
  | nil => rfl
  | cons key rest ih =>
    obtain ⟨hkey, hrest⟩ := not_or.mp (mt List.mem_cons.mpr hkeys)
    rw [selected_cons, selected_cons, h key (Ne.symm hkey), ih hrest]

theorem SameBeside.languageEntry (h : SameBeside m m') {key : String} (hkey : key ≠ "criteria") :
    languageEntry s m' key = languageEntry s m key := by
  rw [Conversion.languageEntry, Conversion.languageEntry, h key hkey]

theorem SameBeside.ownOptions (h : SameBeside m m') : ownOptions s m' = ownOptions s m := by
  have hlanguage : ["globals", "parser", "parserOptions"].flatMap (Conversion.languageEntry s m') =
      ["globals", "parser", "parserOptions"].flatMap (Conversion.languageEntry s m) := by
    simp only [List.flatMap_cons, List.flatMap_nil]
    rw [h.languageEntry (by decide), h.languageEntry (by decide), h.languageEntry (by decide)]
  rw [Conversion.ownOptions, Conversion.ownOptions, hlanguage, linterOptions, linterOptions,
    h.selected (by decide), h.selected (by decide)]

theorem SameBeside.readable (h : SameBeside m m') (hm : Readable s m)
    (hc : CriteriaShaped s (m'.at "criteria")) : Readable s m' := by
  refine ⟨?_, ?_, hc, ?_, ?_, ?_⟩
  · rw [h.at (by decide)]
    exact hm.settings
  · rw [h.at (by decide)]
    exact hm.ignorePattern
  · rw [h.at (by decide)]
    exact hm.plugins
  · rw [h.at (by decide)]
    exact hm.env
  · rw [h.at (by decide)]
    exact hm.known

/-- The same fragments are entered from both. -/
theorem SameBeside.enters (h : SameBeside m m') (hm : s.shared.view node = .mapping m)
    (hm' : s.shared.view node' = .mapping m') {name : String} {fragment : Value}
    (he : Enters s node' name fragment) : Enters s node name fragment := by
  obtain ⟨entries, hentries, hall, hrec, hf⟩ := he
  rw [hm'] at hentries
  cases hentries
  rw [h.asksFor] at hall hrec
  rw [h.namedEnvironments, h.envOf] at hf
  exact ⟨m, hm, hall, hrec, hf⟩

theorem SameBeside.legible (h : SameBeside m m') (hm : s.shared.view node = .mapping m)
    (hm' : s.shared.view node' = .mapping m') (hl : Legible s node)
    (hc : CriteriaShaped s (m'.at "criteria")) : Legible s node' := by
  intro names last hleads
  cases hleads with
  | here =>
    obtain ⟨entries, hentries, hr⟩ := hl [] node (.here node)
    rw [hm] at hentries
    cases hentries
    exact ⟨m', hm', h.readable hr hc⟩
  | step he hrest => exact hl _ _ (.step (h.enters hm hm' he) hrest)

/-- A readable node that asks for no whole set of rules: what its environments
give, and its own item. -/
theorem convert_readable (hm : s.shared.view node = .mapping m) (hr : Readable s m)
    (hall : asksFor s m allRules = false) (hrec : asksFor s m recommendedRules = false) :
    ∃ fuel expand, chainBound s node = fuel + 1 ∧
      (∀ f, (expand (.str f.1) f.2).result = entered s fuel [] f) ∧
      (convert s node).result = (foldEnvironments s expand (namedEnvironments s m) (envOf s m)
        (front s m)).map fun items => items.items ++ ownItems s m := by
  obtain ⟨fuel, hfuel⟩ : ∃ fuel, chainBound s node = fuel + 1 := ⟨_, rfl⟩
  obtain ⟨expand, hx, hreached⟩ := reached_readable fuel [] hm hr
  refine ⟨fuel, expand, hfuel, hx, ?_⟩
  rw [convert_result, translated, hfuel, hreached, hall, hrec]
  cases foldEnvironments s expand (namedEnvironments s m) (envOf s m) (front s m) <;> rfl

/-- Under other criteria a node has the same items beside its own one. -/
theorem convert_alike (hm : s.shared.view node = .mapping m) (hm' : s.shared.view node' = .mapping m')
    (h : SameBeside m m') (hall : asksFor s m allRules = false)
    (hrec : asksFor s m recommendedRules = false) (hl : Legible s node)
    (hc : CriteriaShaped s (m'.at "criteria")) :
    (∃ cycle, (convert s node).result = .error (.problem (.environmentCycle cycle)) ∧
      (convert s node').result = .error (.problem (.environmentCycle cycle))) ∨
    ∃ beside, (convert s node).result = .ok (beside ++ ownItems s m) ∧
      (convert s node').result = .ok (beside ++ ownItems s m') := by
  obtain ⟨_, hentries, hr⟩ := hl [] node (.here node)
  rw [hm] at hentries
  cases hentries
  obtain ⟨fuel, expand, hfuel, hx, hconvert⟩ := convert_readable hm hr hall hrec
  obtain ⟨fuel', expand', hfuel', hx', hconvert'⟩ := convert_readable hm' (h.readable hr hc)
    (by rw [h.asksFor, hall]) (by rw [h.asksFor, hrec])
  rw [h.namedEnvironments, h.envOf, h.front] at hconvert'
  -- The fuel of the two conversions differs, and suffices for both.
  have hfold : foldEnvironments s expand' (namedEnvironments s m) (envOf s m) (front s m) =
      foldEnvironments s expand (namedEnvironments s m) (envOf s m) (front s m) := by
    refine foldEnvironments_congr hr.known (fun f hf => ?_) _
    have he : Enters s node f.1 f.2 := (enters_iff hm hall hrec).mpr hf
    have he' : Enters s node' f.1 f.2 := by
      refine (enters_iff hm' (by rw [h.asksFor, hall]) (by rw [h.asksFor, hrec])).mpr ?_
      rw [h.namedEnvironments, h.envOf]
      exact hf
    have hmem : f.1 ∉ ([] : List String) := List.not_mem_nil
    obtain ⟨hkeys, hleft⟩ := unused_entered he hmem hfuel
    obtain ⟨hkeys', hleft'⟩ := unused_entered he' hmem hfuel'
    rw [hx, hx', entered, entered, if_neg hmem, if_neg hmem]
    exact reached_fuel (hl.enters he) (closed_namesAround s node') hkeys' hleft'
      (closed_namesAround s node) hkeys hleft
  rw [hfold] at hconvert'
  cases hitems : foldEnvironments s expand (namedEnvironments s m) (envOf s m) (front s m) with
  | ok items =>
    rw [hitems] at hconvert hconvert'
    exact .inr ⟨items.items, hconvert, hconvert'⟩
  | error e =>
    rw [hitems] at hconvert hconvert'
    rcases convert_legible hl with ⟨items, hok⟩ | ⟨cycle, hcycle⟩
    · rw [hconvert] at hok
      cases hok
    · rw [hconvert] at hcycle
      cases hcycle
      exact .inl ⟨cycle, hconvert, hconvert'⟩

theorem withoutPatterns_ownForm (s : Setting) (m : Entries) : withoutPatterns (ownForm s m) =
    ownOptions s m ++ Node.optionalEntry "plugins"
      (if s.shared.truthy (m.at "plugins") then some (.mapping (definitionsOf s m)) else none) := by
  have hf : Entries.field? (ownOptions s m) "files" = none := by rw [field?_ownOptions]; rfl
  have hi : Entries.field? (ownOptions s m) "ignores" = none := by rw [field?_ownOptions]; rfl
  have erased : ∀ (key : String) (v : Option Value), Entries.erase (Node.optionalEntry key v) (.str key) = [] := by
    intro key v
    cases v <;> simp [Node.optionalEntry, Entries.erase]
  have kept : ∀ (key other : String) (v : Option Value), other ≠ key →
      Entries.erase (Node.optionalEntry other v) (.str key) = Node.optionalEntry other v := by
    intro key other v hne
    exact Entries.erase_absent (by rw [Entries.field?_optionalEntry, if_neg hne])
  simp only [withoutPatterns, ownForm, withPatterns, Entries.erase_append, Entries.erase_absent hf,
    Entries.erase_absent hi, erased, kept "files" "ignores" _ (by decide), kept "files" "plugins" _ (by decide),
    kept "ignores" "plugins" _ (by decide), List.append_nil]

theorem SameBeside.withoutPatterns (h : SameBeside m m') :
    withoutPatterns (ownForm s m') = withoutPatterns (ownForm s m) := by
  rw [withoutPatterns_ownForm, withoutPatterns_ownForm, h.ownOptions, h.at (by decide), definitionsOf,
    definitionsOf, h.pluginsOf]

/-- Pairs that say nothing do not count. -/
theorem filterMap_says {f : Value → Option Value} (h : ∀ pair v, f pair = some v → Says s pair) (pairs : List Value) :
    (pairs.filter fun pair => decide (Says s pair)).filterMap f = pairs.filterMap f := by
  rw [List.filterMap_filter]
  congr 1
  funext pair
  cases hv : f pair with
  | none => simp
  | some v => simp [h pair v hv]

theorem under_says (pairs : List Value) :
    filesUnder s (pairs.filter fun pair => decide (Says s pair)) = filesUnder s pairs ∧
    ignoresUnder s (pairs.filter fun pair => decide (Says s pair)) = ignoresUnder s pairs := by
  rw [filesUnder, ignoresUnder, filterMap_says fun pair v hv => exists_filesOf.mp ⟨v, hv⟩,
    filterMap_says fun pair v hv => .inl (exists_ignoresOf.mp ⟨v, hv⟩).1]
  exact ⟨rfl, rfl⟩

/-- Pairs that agree where they say anything give the same entry. -/
theorem SameBeside.ownForm (h : SameBeside m m')
    (hpairs : (pairsOf s (m'.at "criteria")).filter (fun pair => decide (Says s pair)) =
      (pairsOf s (m.at "criteria")).filter fun pair => decide (Says s pair)) :
    ownForm s m' = ownForm s m := by
  obtain ⟨hfiles, hignores⟩ := under_says (s := s) (pairsOf s (m.at "criteria"))
  obtain ⟨hfiles', hignores'⟩ := under_says (s := s) (pairsOf s (m'.at "criteria"))
  rw [Conversion.ownForm, Conversion.ownForm, ← hfiles', ← hignores', hpairs, hfiles, hignores, h.ownOptions,
    h.at (by decide), definitionsOf, definitionsOf, h.pluginsOf]

/-- The patterns of an own entry are the last ones in the list of pairs that are
the node's criteria. A node with other criteria, as long as they are criteria, has
the same items, but for the patterns of its own entry; and with the same pairs
among those that say anything, it has the same items altogether. -/
theorem convert_patterns (hm : s.shared.view node = .mapping m) (hall : asksFor s m allRules = false)
    (hrec : asksFor s m recommendedRules = false) :
    (∀ items, (convert s node).result = .ok items → ∃ beside own, items = beside ++ entryItems own ∧
      Patterned s (pairsOf s (m.at "criteria")) own) ∧
    ∀ (node' : Value) (m' : Entries), s.shared.view node' = .mapping m' → SameBeside m m' → Legible s node →
      CriteriaShaped s (m'.at "criteria") →
      (∃ cycle, (convert s node).result = .error (.problem (.environmentCycle cycle)) ∧
        (convert s node').result = .error (.problem (.environmentCycle cycle))) ∨
      ∃ beside own own', (convert s node).result = .ok (beside ++ entryItems own) ∧
        (convert s node').result = .ok (beside ++ entryItems own') ∧
        Patterned s (pairsOf s (m.at "criteria")) own ∧
        Patterned s (pairsOf s (m'.at "criteria")) own' ∧
        withoutPatterns own' = withoutPatterns own ∧
        ((pairsOf s (m'.at "criteria")).filter (fun pair => decide (Says s pair)) =
          (pairsOf s (m.at "criteria")).filter (fun pair => decide (Says s pair)) → own' = own) := by
  refine ⟨?_, ?_⟩
  · intro items h
    obtain ⟨beside, hitems⟩ := convert_form hm hall hrec h
    exact ⟨beside, ownForm s m, hitems, patterned_ownForm s m⟩
  · intro node' m' hm' h hl hc
    obtain ⟨_, hentries, hr⟩ := hl [] node (.here node)
    rw [hm] at hentries
    cases hentries
    have hform : ownItems s m = entryItems (ownForm s m) := by
      rw [ownItems, ownEntries_form (applyCriteria_ok hr.criteria _)]
      rfl
    have hform' : ownItems s m' = entryItems (ownForm s m') := by
      rw [ownItems, ownEntries_form (applyCriteria_ok hc _)]
      rfl
    rcases convert_alike hm hm' h hall hrec hl hc with hcycle | ⟨beside, hok, hok'⟩
    · exact .inl hcycle
    · rw [hform] at hok
      rw [hform'] at hok'
      exact .inr ⟨beside, ownForm s m, ownForm s m', hok, hok', patterned_ownForm s m, patterned_ownForm s m',
        h.withoutPatterns, h.ownForm⟩

/-! Of three pairs the first one gives the files that are ignored and the last
one those that are included; the one between them says nothing. -/

def criteriaEntries (pairs : List PatternPair) : Entries := [
  (.str "rules", .mapping [(.str "semi", .int 2)]),
  (.str "criteria", Criteria.value ⟨pairs, none⟩)]

def threePairs : List PatternPair := [⟨some ["*.ts"], some ["*.d.ts"]⟩, ⟨none, none⟩, ⟨none, some ["lib"]⟩]

def twoPairs : List PatternPair := [⟨some ["*.ts"], some ["*.d.ts"]⟩, ⟨none, some ["lib"]⟩]

def pairsItem : Entries := [
  (.str "rules", .mapping [(.str "semi", .int 2)]),
  (.str "files", .list [.list [.str "!lib"]]),
  (.str "ignores", .list [.str "*.d.ts"])]

theorem wellShaped_criteria : WellShaped sampleSetting (.mapping (criteriaEntries threePairs)) :=
  .of_no_steps rfl (by decide) rfl

theorem sameBeside_criteria (pairs pairs' : List PatternPair) :
    SameBeside (criteriaEntries pairs) (criteriaEntries pairs') := by
  intro key hkey
  simp [criteriaEntries, Entries.field?_cons, Ne.symm hkey]

theorem convert_patterns_criteria :
    (convert sampleSetting (.mapping (criteriaEntries threePairs))).result = .ok [item pairsItem] ∧
    (∃ beside own, [item pairsItem] = beside ++ entryItems own ∧
      Patterned sampleSetting (threePairs.map PatternPair.value) own) ∧
    (convert sampleSetting (.mapping (criteriaEntries twoPairs))).result = .ok [item pairsItem] := by
  have hm : sampleSetting.shared.view (.mapping (criteriaEntries threePairs)) =
      .mapping (criteriaEntries threePairs) := rfl
  have hr : (convert sampleSetting (.mapping (criteriaEntries threePairs))).result =
      .ok [item pairsItem] := rfl
  obtain ⟨hown, halike⟩ := convert_patterns hm rfl rfl
  refine ⟨hr, hown _ hr, ?_⟩
  have hc : CriteriaShaped sampleSetting ((criteriaEntries twoPairs).at "criteria") := by decide
  rcases halike (.mapping (criteriaEntries twoPairs)) (criteriaEntries twoPairs) rfl
      (sameBeside_criteria _ _) wellShaped_criteria.legible hc with ⟨cycle, herr, -⟩ | ⟨_, _, _, hok, hok', -, -, -, hsame⟩
  · rw [hr] at herr
    cases herr
  · rw [hok', hsame rfl, ← hok, hr]

end Cascade.Conversion
