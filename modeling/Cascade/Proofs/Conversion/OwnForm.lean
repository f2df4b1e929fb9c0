import Cascade.Proofs.Conversion.OwnItem

/-! # The entries of an own item, one after the other

The conversion sets, erases and merges entries of the item it works on. None of
this ever meets a key twice, so what comes out is a row of entries: the options
that are taken over, those of the language and of the linter, the patterns of
the last pairs that have them, and the plugins. -/
namespace Cascade

namespace Entries

theorem field?_cons (k v : Value) (m : Entries) (name : String) :
    field? ((k, v) :: m) name = if k.same (.str name) then some v else field? m name := by
  by_cases h : k.same (.str name) = true <;> simp [field?, get?, h]

theorem field?_entry (key : String) (v : Value) (name : String) :
    field? [(.str key, v)] name = if key = name then some v else none := by
  simp [field?, get?]

theorem field?_eq_none {m : Entries} {key : String} :
    field? m key = none ↔ ∀ e ∈ m, e.1 ≠ .str key := by
  simp [field?, get?]

theorem setField_append {m : Entries} {key : String} (h : field? m key = none) (m' : Entries) (v : Value) :
    setField (m ++ m') key v = m ++ setField m' key v := by
  induction m with
  | nil => rfl
  | cons e rest ih =>
    have he : e.1 ≠ .str key := field?_eq_none.mp h e (by simp)
    have hrest : field? rest key = none :=
      field?_eq_none.mpr fun e he => field?_eq_none.mp h e (List.mem_cons_of_mem _ he)
    rw [List.cons_append, setField, set, if_neg (by simpa using he)]
    exact congrArg (e :: ·) (ih hrest)

/-- A key that is not there is set at the end. -/
theorem setField_absent {m : Entries} {key : String} (h : field? m key = none) (v : Value) :
    setField m key v = m ++ [(.str key, v)] := by
  simpa [setField, set] using setField_append h [] v

theorem erase_append (m m' : Entries) (key : Value) : erase (m ++ m') key = erase m key ++ erase m' key :=
  List.filter_append ..

theorem erase_absent {m : Entries} {key : String} (h : field? m key = none) : erase m (.str key) = m := by
  rw [erase, List.filter_eq_self]
  intro e he
  rw [Bool.not_eq_true', Bool.eq_false_iff, Ne, Value.same_str]
  exact field?_eq_none.mp h e he

end Entries

namespace Conversion

variable {s : Setting} {m own : Entries}

/-! ## Options -/

theorem selected_cons (key : String) (keys : List String) (m : Entries) :
    selected (key :: keys) m = Node.optionalEntry key (Entries.field? m key) ++ selected keys m := by
  cases h : Entries.field? m key <;> simp [selected, Node.optionalEntry, h]

theorem field?_selected (keys : List String) (m : Entries) (name : String) :
    Entries.field? (selected keys m) name = if name ∈ keys then Entries.field? m name else none := by
  induction keys with
  | nil => simp [selected, Entries.field?, Entries.get?]
  | cons key rest ih =>
    rw [selected_cons, Entries.field?_append, Entries.field?_optionalEntry, ih]
    by_cases h : key = name
    · subst h
      by_cases hm : key ∈ rest <;> simp [hm]
    · simp [h, Ne.symm h]

theorem field?_group (key : String) (part : Entries) (name : String) :
    Entries.field? (group key part) name =
      if key = name then (if part.isEmpty then none else some (.mapping part)) else none := by
  unfold group
  split <;> simp [Entries.field?, Entries.get?]

/-- The parser options that are no options of the language, in their order. -/
def remaining (options : Entries) : Entries :=
  options.filter fun e => !hoistedOptions.any fun key => e.1.same (.str key)

theorem erase_hoisted (options : Entries) :
    hoistedOptions.foldl (fun m key => Entries.erase m (.str key)) options = remaining options := by
  simp [hoistedOptions, remaining, Entries.erase, List.filter_filter, Bool.and_comm]

/-- What is selected for keys that are not there is set at the end, in order. -/
theorem merge_selected {keys : List String} (hkeys : keys.Nodup) {place : Entries}
    (h : ∀ key ∈ keys, Entries.field? place key = none) (options : Entries) :
    Entries.merge place (selected keys options) = place ++ selected keys options := by
  induction keys generalizing place with
  | nil => exact (List.append_nil place).symm
  | cons key rest ih =>
    obtain ⟨hkey, hrest⟩ := List.nodup_cons.mp hkeys
    have hplace : ∀ other ∈ rest, Entries.field? place other = none :=
      fun other ho => h other (List.mem_cons_of_mem _ ho)
    rw [selected_cons]
    cases hv : Entries.field? options key with
    | none => exact ih hrest hplace
    | some v =>
      have hset : Entries.set place (.str key) v = place ++ [(.str key, v)] :=
        Entries.setField_absent (h key (by simp)) v
      -- the entry that is set does not make one of the other keys present
      have hnext : ∀ other ∈ rest, Entries.field? (place ++ [(.str key, v)]) other = none := by
        intro other ho
        rw [Entries.field?_append, hplace other ho, Option.none_or, Entries.field?_entry, if_neg]
        rintro rfl
        exact hkey ho
      show Entries.merge (Entries.set place (.str key) v) (selected rest options) = _
      rw [hset, ih hrest hnext, List.append_assoc]
      rfl

/-- The options of the language and the remaining parser options take the place
of the parser options. -/
theorem hoist_mapping {front options : Entries}
    (h : ∀ key ∈ "parserOptions" :: hoistedOptions, Entries.field? front key = none) :
    hoist (front ++ [(.str "parserOptions", .mapping options)]) =
      front ++ group "parserOptions" (remaining options) ++ selected hoistedOptions options := by
  have hparser : Entries.field? front "parserOptions" = none := h _ (by simp)
  have hfield : Entries.field? (front ++ [(.str "parserOptions", .mapping options)]) "parserOptions" =
      some (.mapping options) := by
    rw [Entries.field?_append, hparser]
    rfl
  have hplace : (if (remaining options).isEmpty
        then Entries.erase (front ++ [(.str "parserOptions", .mapping options)]) (.str "parserOptions")
        else Entries.setField (front ++ [(.str "parserOptions", .mapping options)]) "parserOptions"
          (.mapping (remaining options))) = front ++ group "parserOptions" (remaining options) := by
    rw [Entries.erase_append, Entries.erase_absent hparser, Entries.setField_append hparser, group]
    split <;> rfl
  have habsent : ∀ key ∈ hoistedOptions,
      Entries.field? (front ++ group "parserOptions" (remaining options)) key = none := by
    intro key hkey
    rw [Entries.field?_append, h key (List.mem_cons_of_mem _ hkey), field?_group, if_neg]
    · rfl
    · rintro rfl
      simp [hoistedOptions] at hkey
  unfold hoist
  simp only [hfield]
  rw [erase_hoisted, hplace, merge_selected (by decide) habsent]

theorem hoist_other (h : ∀ options, Entries.field? m "parserOptions" ≠ some (.mapping options)) :
    hoist m = m := by
  unfold hoist
  split
  · rename_i options ho
    exact absurd ho (h options)
  · rfl

/-! ## Patterns -/

/-- The pairs of patterns of a node's criteria. -/
def pairsOf (s : Setting) (criteria : Value) : List Value :=
  match criteria with
  | .null => []
  | criteria =>
    if s.shared.truthy (s.shared.member criteria "patterns")
    then s.shared.itemsIn (s.shared.member criteria "patterns") else []

/-- The patterns on one side of a pair, if it has that side. -/
def side? (s : Setting) (side : String) (pair : Value) : Option (List Value) :=
  match s.shared.member pair side with
  | .null => none
  | patterns => some (s.shared.itemsIn patterns)

/-- The files that a pair is about: those it includes, or one group of negated
patterns when it only excludes some. -/
def filesOf (s : Setting) (pair : Value) : Option Value :=
  match side? s "includes" pair, side? s "excludes" pair with
  | some includes, _ => some (.list includes)
  | none, some excludes => some (.list [.list (excludes.map fun e => .str ("!" ++ s.shared.text e))])
  | none, none => none

/-- The files that a pair leaves out of those it includes. -/
def ignoresOf (s : Setting) (pair : Value) : Option Value :=
  match side? s "includes" pair, side? s "excludes" pair with
  | some _, some excludes => some (.list excludes)
  | _, _ => none

theorem filesOf_of_ignoresOf {pair v : Value} (h : ignoresOf s pair = some v) :
    ∃ files, filesOf s pair = some files := by
  unfold ignoresOf at h
  unfold filesOf
  split at h
  · rename_i hi he
    rw [hi, he]
    exact ⟨_, rfl⟩
  · cases h

/-- An item with patterns for the files it applies to and for those it does not. -/
def withPatterns (own : Entries) (files ignores : Option Value) : Entries :=
  own ++ Node.optionalEntry "files" files ++ Node.optionalEntry "ignores" ignores

theorem setField_files (hf : Entries.field? own "files" = none) {files ignores : Option Value}
    (hi : files = none → ignores = none) (v : Value) :
    Entries.setField (withPatterns own files ignores) "files" v = withPatterns own (some v) ignores := by
  rw [withPatterns, List.append_assoc, Entries.setField_append hf, withPatterns, List.append_assoc]
  congr 1
  cases files with
  | none =>
    rw [hi rfl]
    rfl
  | some files => rfl

theorem setField_ignores (hi : Entries.field? own "ignores" = none) (files ignores : Option Value) (v : Value) :
    Entries.setField (withPatterns own files ignores) "ignores" v = withPatterns own files (some v) := by
  have hf : Entries.field? (own ++ Node.optionalEntry "files" files) "ignores" = none := by
    rw [Entries.field?_append, hi, Entries.field?_optionalEntry]
    rfl
  rw [withPatterns, Entries.setField_append hf, withPatterns]
  congr 1
  cases ignores <;> rfl

theorem side?_null {side : String} {pair : Value} (h : s.shared.member pair side = .null) :
    side? s side pair = none := by
  rw [side?, h]

theorem side?_items {side : String} {pair : Value} (h : s.shared.member pair side ≠ .null)
    {patterns : List Value} (hp : s.shared.itemsOf (s.shared.member pair side) = .ok patterns) :
    side? s side pair = some patterns := by
  have hin : s.shared.itemsIn (s.shared.member pair side) = patterns := by
    rw [Shared.itemsIn, hp]
    rfl
  rw [← hin, side?]
  split
  · rename_i hnull
    exact absurd hnull h
  · rfl

/-- A pair changes the patterns of an item to its own ones, where it has them. -/
theorem applyPair_withPatterns (hf : Entries.field? own "files" = none)
    (hi : Entries.field? own "ignores" = none) {files ignores : Option Value}
    (hpatterns : files = none → ignores = none) {pair : Value} {own' : Entries}
    (h : applyPair s (withPatterns own files ignores) pair = .ok own') :
    own' = withPatterns own ((filesOf s pair).or files) ((ignoresOf s pair).or ignores) := by
  unfold applyPair at h
  split at h
  · rename_i hinc hexc
    cases h
    rw [filesOf, ignoresOf, side?_null hinc, side?_null hexc]
    rfl
  · rename_i hinc hexc
    obtain ⟨excludes, hx, h⟩ := bind_eq_ok.mp h
    cases h
    rw [filesOf, ignoresOf, side?_null hinc, side?_items (by simpa using hexc) hx]
    exact setField_files hf hpatterns _
  · rename_i hexc hinc
    obtain ⟨includes, hx, h⟩ := bind_eq_ok.mp h
    cases h
    rw [filesOf, ignoresOf, side?_null hexc, side?_items (by simpa using hinc) hx]
    exact setField_files hf hpatterns _
  · rename_i hinc hexc _
    obtain ⟨includes, hx, h⟩ := bind_eq_ok.mp h
    obtain ⟨excludes, hy, h⟩ := bind_eq_ok.mp h
    cases h
    rw [filesOf, ignoresOf, side?_items (by simpa using hinc) hx, side?_items (by simpa using hexc) hy,
      setField_files hf hpatterns, setField_ignores hi]
    rfl

/-- The patterns that a list of pairs gives an item: each is the last one there is. -/
def filesUnder (s : Setting) (pairs : List Value) : Option Value := (pairs.filterMap (filesOf s)).getLast?

def ignoresUnder (s : Setting) (pairs : List Value) : Option Value :=
  (pairs.filterMap (ignoresOf s)).getLast?

theorem getLast?_filterMap_cons {α β : Type} (f : α → Option β) (a : α) (rest : List α) :
    ((a :: rest).filterMap f).getLast? = ((rest.filterMap f).getLast?).or (f a) := by
  cases h : f a with
  | none => rw [List.filterMap_cons_none h, Option.or_none]
  | some b =>
    rw [List.filterMap_cons_some h, List.getLast?_cons]
    cases (rest.filterMap f).getLast? <;> rfl

theorem foldlM_applyPair (hf : Entries.field? own "files" = none)
    (hi : Entries.field? own "ignores" = none) {pairs : List Value} {files ignores : Option Value}
    (hpatterns : files = none → ignores = none) {own' : Entries}
    (h : pairs.foldlM (applyPair s) (withPatterns own files ignores) = .ok own') :
    own' = withPatterns own ((filesUnder s pairs).or files) ((ignoresUnder s pairs).or ignores) := by
  induction pairs generalizing files ignores with
  | nil => cases h; rfl
  | cons pair rest ih =>
    rw [List.foldlM_cons] at h
    obtain ⟨next, hnext, h⟩ := bind_eq_ok.mp h
    rw [applyPair_withPatterns hf hi hpatterns hnext] at h
    have hstep : (filesOf s pair).or files = none → (ignoresOf s pair).or ignores = none := by
      intro hnone
      obtain ⟨hfiles, hold⟩ := Option.or_eq_none_iff.mp hnone
      rw [hpatterns hold, Option.or_none]
      cases hignores : ignoresOf s pair with
      | none => rfl
      | some v =>
        obtain ⟨files, hsome⟩ := filesOf_of_ignoresOf hignores
        rw [hfiles] at hsome
        cases hsome
    rw [ih hstep h, filesUnder, filesUnder, ignoresUnder, ignoresUnder, getLast?_filterMap_cons,
      getLast?_filterMap_cons, Option.or_assoc, Option.or_assoc]

theorem pairsOf_of_ne {criteria : Value} (h : criteria = .null → False) : pairsOf s criteria =
    if s.shared.truthy (s.shared.member criteria "patterns")
    then s.shared.itemsIn (s.shared.member criteria "patterns") else [] := by
  unfold pairsOf
  split
  · exact (h rfl).elim
  · rfl

/-- Criteria give an item the last patterns that their pairs have. -/
theorem applyCriteria_withPatterns (hf : Entries.field? own "files" = none)
    (hi : Entries.field? own "ignores" = none) {criteria : Value} {own' : Entries}
    (h : applyCriteria s own criteria = .ok own') :
    own' = withPatterns own (filesUnder s (pairsOf s criteria)) (ignoresUnder s (pairsOf s criteria)) := by
  have hnone : withPatterns own none none = own := by simp [withPatterns, Node.optionalEntry]
  unfold applyCriteria at h
  split at h
  · cases h
    exact hnone.symm
  · rename_i hc
    rw [pairsOf_of_ne hc]
    by_cases ht : s.shared.truthy (s.shared.member criteria "patterns") = true
    · rw [if_pos ht] at h ⊢
      obtain ⟨pairs, hpairs, h⟩ := bind_eq_ok.mp h
      rw [← hnone] at h
      simpa [Shared.itemsIn, hpairs, Except.toOption] using foldlM_applyPair hf hi id h
    · rw [if_neg ht] at h ⊢
      cases h
      exact hnone.symm

/-! ## The whole item -/

/-- The options of the language that a node gives. -/
def ownLanguage (s : Setting) (m : Entries) : Entries :=
  hoist (["globals", "parser", "parserOptions"].flatMap (languageEntry s m))

theorem field?_ownOptions (s : Setting) (m : Entries) (name : String) :
    Entries.field? (ownOptions s m) name =
      (if name ∈ ["settings", "rules", "processor"] then Entries.field? m name else none).or
      ((if "languageOptions" = name
        then (if (ownLanguage s m).isEmpty then none else some (.mapping (ownLanguage s m))) else none).or
      (if "linterOptions" = name
        then (if (linterOptions m).isEmpty then none else some (.mapping (linterOptions m))) else none)) := by
  rw [ownOptions, Entries.field?_append, Entries.field?_append, field?_selected, field?_group,
    field?_group, Option.or_assoc]
  rfl

/-- The entries of a node's own item in order. -/
def ownForm (s : Setting) (m : Entries) : Entries :=
  withPatterns (ownOptions s m) (filesUnder s (pairsOf s (m.at "criteria")))
      (ignoresUnder s (pairsOf s (m.at "criteria"))) ++
    Node.optionalEntry "plugins"
      (if s.shared.truthy (m.at "plugins") then some (.mapping (definitionsOf s m)) else none)

theorem ownEntries_form {restricted : Entries}
    (h : applyCriteria s (ownOptions s m) (m.at "criteria") = .ok restricted) :
    ownEntries s m = ownForm s m := by
  have hf : Entries.field? (ownOptions s m) "files" = none := by rw [field?_ownOptions]; rfl
  have hi : Entries.field? (ownOptions s m) "ignores" = none := by rw [field?_ownOptions]; rfl
  have hp : Entries.field? (ownOptions s m) "plugins" = none := by rw [field?_ownOptions]; rfl
  have hwith := applyCriteria_withPatterns hf hi h
  have habsent : Entries.field? restricted "plugins" = none := by
    rw [hwith, withPatterns, Entries.field?_append, Entries.field?_append, hp,
      Entries.field?_optionalEntry, Entries.field?_optionalEntry]
    rfl
  unfold ownEntries ownForm
  dsimp only
  rw [← ownOptions, h, ← hwith]
  split
  · exact Entries.setField_absent habsent _
  · exact (List.append_nil restricted).symm

/-- The item of some entries, if there are any. -/
def entryItems (own : Entries) : List Value := if own.isEmpty then [] else [item own]

/-- Where a node is converted, its criteria are patterns. -/
theorem ordinary_restricted {expand : Value → Value → Logged (Precedence Value)} {inner : Precedence Value}
    (h : (ordinary s expand m).result = .ok inner) :
    ∃ restricted, applyCriteria s (ownOptions s m) (m.at "criteria") = .ok restricted := by
  unfold ordinary at h
  rw [Logged.result_bind, languageOptions_result, ok_bind, Logged.result_bind] at h
  obtain ⟨_, -, h⟩ := bind_eq_ok.mp h
  rw [Logged.result_bind] at h
  obtain ⟨restricted, hr, -⟩ := bind_eq_ok.mp h
  exact ⟨restricted, mapError_eq_ok.mp hr⟩

/-- The items of a node without a set of rules end with the one of its entries. -/
theorem convert_form {node : Value} (hm : s.shared.view node = .mapping m)
    (hall : asksFor s m allRules = false) (hrec : asksFor s m recommendedRules = false) {items : List Value}
    (h : (convert s node).result = .ok items) : ∃ beside, items = beside ++ entryItems (ownForm s m) := by
  obtain ⟨expand, inner, hinner, rfl⟩ := convert_ordinary hm hall hrec h
  obtain ⟨restricted, hr⟩ := ordinary_restricted hinner
  obtain ⟨beside, hbeside⟩ := ordinary_own hinner
  rw [ownItems, ownEntries_form hr] at hbeside
  exact ⟨beside, hbeside⟩

end Conversion

end Cascade
