import Cascade.Proofs.Conversion.OwnEntry
import Cascade.Proofs.Conversion.Restated

/-! # Conversion does not depend on how dependencies are represented

A node and a restated one are expanded in step: their environments have the same names and
stand for fragments that are restated again, so both conversions give the same items or
report the same cycle. The fuel of the two differs, since objects hide the names that
mappings have, and suffices for both. -/
namespace Cascade.Conversion

variable {store : Shared} {table table' : Environment.Table} {R : Value → Value → Prop} {m m' : Entries}
  {node node' v v' : Value}

/-! ## Parts of restated nodes -/

theorem SameDefinition.member (h : SameDefinition store R v v') {name : String} (hn : name ≠ "environments") :
    store.member v name = store.member v' name :=
  (Shared.Restated.member h Only.refl name).eq hn

theorem SameDefinition.environments (h : SameDefinition store R v v') :
    store.Entrywise R (store.member v "environments") (store.member v' "environments") :=
  (Shared.Restated.member h Only.refl "environments").inside .same

theorem SamePlugin.definition (h : SamePlugin store R v v') :
    SameDefinition store R (store.member v "definition") (store.member v' "definition") :=
  (Shared.Restated.member h Only.refl "definition").inside .same

theorem SameParser.definition (h : SameParser store v v') :
    store.SameMembers (store.member v "definition") (store.member v' "definition") :=
  (Shared.Restated.member h Only.refl "definition").inside .same

theorem SameCriteria.patterns (h : SameCriteria store v v') :
    store.Itemwise store.SameMembers (store.member v "patterns") (store.member v' "patterns") :=
  (Shared.Restated.member h Only.refl "patterns").inside .same

theorem SamePlugin.processorsOf (table table' : Environment.Table) (h : SamePlugin store R v v') :
    processorsOf ⟨table, store⟩ v = processorsOf ⟨table', store⟩ v' :=
  congrArg store.entriesIn (h.definition.member (by decide))

theorem SamePlugin.environmentsOf (h : SamePlugin store R v v') (hrefl : ∀ v, R v v) :
    Keywise (fun _ => R) (environmentsOf ⟨table, store⟩ v) (environmentsOf ⟨table', store⟩ v') :=
  h.definition.environments.entriesIn hrefl

theorem pairsOf_restated (table table' : Environment.Table) (h : SameCriteria store v v') :
    List.Forall₂ store.SameMembers (pairsOf ⟨table, store⟩ v) (pairsOf ⟨table', store⟩ v') := by
  by_cases hnull : v = .null
  · rw [hnull, h.eq_null_iff.mp hnull]
    exact .nil
  · rw [pairsOf_of_ne hnull, pairsOf_of_ne fun h' => hnull (h.eq_null_iff.mpr h'), h.patterns.truthy]
    split
    · exact h.patterns.itemsIn .same
    · exact .nil

theorem filesOf_restated (h : store.SameMembers v v') : filesOf ⟨table, store⟩ v = filesOf ⟨table', store⟩ v' := by
  simp only [filesOf, side?, h.member]

theorem ignoresOf_restated (h : store.SameMembers v v') : ignoresOf ⟨table, store⟩ v = ignoresOf ⟨table', store⟩ v' := by
  simp only [ignoresOf, side?, h.member]

theorem ignoreItem_of_ne {s : Setting} (h : v ≠ .null) : ignoreItem s v = (do
    let patterns ← s.shared.itemsOf (s.shared.member v "patterns")
    return [item [(.str "ignores", .list patterns)]]) := by
  unfold ignoreItem
  split
  · exact absurd rfl h
  · rfl

theorem SamePlugin.shaped (h : SamePlugin store R v v') (hv : PluginShaped ⟨table, store⟩ v) :
    PluginShaped ⟨table', store⟩ v' := by
  have hprocessors : store.member (store.member v "definition") "processors" =
      store.member (store.member v' "definition") "processors" := h.definition.member (by decide)
  exact ⟨hprocessors ▸ hv.processors, h.processorsOf table table' ▸ hv.processorNames,
    h.definition.environments.mappable hv.environments⟩

theorem SameCriteria.shaped (h : SameCriteria store v v') (hv : CriteriaShaped ⟨table, store⟩ v) :
    CriteriaShaped ⟨table', store⟩ v' := by
  refine hv.imp h.eq_null_iff.mp (Or.imp (fun hf => ?_) fun ⟨hi, hpairs⟩ =>
    ⟨h.patterns.iterable hi, fun pair' hpair => ?_⟩)
  · rwa [← h.patterns.truthy]
  · obtain ⟨pair, hmem, hsame⟩ := exists_left_of_forall₂ (h.patterns.itemsIn .same) hpair
    exact fun side hside => hsame.member side ▸ hpairs pair hmem side hside

namespace EntriesRestated

theorem at_eq (h : EntriesRestated store R m m') (key : String) (hk : key ∉ recordKeys) : m.at key = m'.at key := by
  rw [Entries.at, Entries.at, h.others key hk]

variable (table table' : Environment.Table) (h : EntriesRestated store (SameNode store) m m')
include h

theorem asksFor_eq (rules : String) : asksFor ⟨table, store⟩ m rules = asksFor ⟨table', store⟩ m' rules := by
  rw [asksFor, asksFor, h.at_eq _ (by decide)]

theorem envOf_eq : envOf ⟨table, store⟩ m = envOf ⟨table', store⟩ m' := by
  rw [envOf, envOf, h.at_eq _ (by decide)]

theorem pluginsOf : Keywise (fun _ => SamePlugin store (SameNode store)) (pluginsOf ⟨table, store⟩ m)
    (pluginsOf ⟨table', store⟩ m') :=
  h.plugins.entriesIn .same

theorem front_eq : front ⟨table, store⟩ m = front ⟨table', store⟩ m' := by
  have hprocessors : processorItems ⟨table, store⟩ m = processorItems ⟨table', store⟩ m' :=
    (h.pluginsOf table table').flatMap_eq fun key p p' hp =>
      congrArg (List.filterMap processorItem?) (hp.processorsOf table table')
  have hignored : ignoreItems ⟨table, store⟩ m = ignoreItems ⟨table', store⟩ m' := by
    by_cases hnull : m.at "ignorePattern" = .null
    · rw [ignoreItems, ignoreItems, hnull, h.ignorePattern.eq_null_iff.mp hnull]
      rfl
    · have hnull' : m'.at "ignorePattern" ≠ .null := fun h' => hnull (h.ignorePattern.eq_null_iff.mpr h')
      rw [ignoreItems, ignoreItems, ignoreItem_of_ne hnull, ignoreItem_of_ne hnull', h.ignorePattern.member]
  rw [front, front, hprocessors, hignored]

theorem namedEnvironments : Keywise (fun _ => SameNode store) (namedEnvironments ⟨table, store⟩ m)
    (namedEnvironments ⟨table', store⟩ m') :=
  (h.pluginsOf table table').flatMap fun key _ _ hp =>
    (hp.environmentsOf SameNode.refl).map fun name => key.text ++ "/" ++ store.text name

theorem definitionsOf : Keywise (fun _ => SameDefinition store (SameNode store)) (definitionsOf ⟨table, store⟩ m)
    (definitionsOf ⟨table', store⟩ m') := by
  have hplugins := h.pluginsOf table table'
  unfold Conversion.definitionsOf
  generalize Conversion.pluginsOf ⟨table, store⟩ m = plugins, Conversion.pluginsOf ⟨table', store⟩ m' = plugins' at hplugins
  -- the definitions are entered one after the other, so those entered before may be any
  suffices hfold : ∀ d d', Keywise (fun _ => SameDefinition store (SameNode store)) d d' →
      Keywise (fun _ => SameDefinition store (SameNode store))
        (plugins.foldl (fun d p => Entries.set d p.1 (store.member p.2 "definition")) d)
        (plugins'.foldl (fun d p => Entries.set d p.1 (store.member p.2 "definition")) d') from hfold [] [] .nil
  induction hplugins with
  | nil => exact fun d d' hd => hd
  | cons hp _ ih =>
    intro d d' hd
    rw [List.foldl_cons, List.foldl_cons, ← hp.1]
    exact ih _ _ (hd.set _ hp.2.definition)

/-- What is restated has the shape of a node too. -/
theorem shaped (hm : Shaped ⟨table, store⟩ m) : Shaped ⟨table', store⟩ m' where
  settings := h.at_eq "settings" (by decide) ▸ hm.settings
  ignorePattern := hm.ignorePattern.imp h.ignorePattern.eq_null_iff.mp fun hi => h.ignorePattern.member "patterns" ▸ hi
  criteria := h.criteria.shaped hm.criteria
  plugins := {
    mappable := h.plugins.mappable hm.plugins.mappable
    names := fun p' hp' => by
      obtain ⟨p, hp, hkey, -⟩ := exists_left_of_forall₂ (h.plugins.entriesIn .same) hp'
      exact hkey ▸ hm.plugins.names p hp
    each := fun p' hp' => by
      obtain ⟨p, hp, -, hsame⟩ := exists_left_of_forall₂ (h.plugins.entriesIn .same) hp'
      exact hsame.shaped (hm.plugins.each p hp) }
  env := h.at_eq "env" (by decide) ▸ hm.env
  envNames := h.at_eq "env" (by decide) ▸ hm.envNames

end EntriesRestated

/-! ## Items of restated nodes -/

/-- Values under a key of an item: only definitions may be restated, of plugins and of parsers. -/
inductive OwnRestated (store : Shared) : Value → Value → Value → Prop
  | same (key v : Value) : OwnRestated store key v v
  | plugins {d d' : Entries} : Keywise (fun _ => SameDefinition store (SameNode store)) d d' →
      OwnRestated store (.str "plugins") (.mapping d) (.mapping d')
  | language {options options' : Entries} : Keywise (Only (.str "parser") store.SameMembers) options options' →
      OwnRestated store (.str "languageOptions") (.mapping options) (.mapping options')

/-- Items that have the same keys in the same order, and the same values but for definitions. -/
inductive ItemRestated (store : Shared) : Value → Value → Prop
  | same (item : Value) : ItemRestated store item item
  | own {own own' : Entries} : Keywise (OwnRestated store) own own' → ItemRestated store (.mapping own) (.mapping own')

/-- Sequences of such items. -/
def ItemsRestated (store : Shared) (items items' : Precedence Value) : Prop :=
  List.Forall₂ (ItemRestated store) items.items items'.items

theorem itemsRestated_same (items : List Value) : List.Forall₂ (ItemRestated store) items items :=
  List.forall₂_same.mpr fun item _ => .same item

namespace EntriesRestated

variable (table table' : Environment.Table) (h : EntriesRestated store (SameNode store) m m')
include h

theorem languageEntry_eq {key : String} (hk : key ∉ recordKeys) :
    languageEntry ⟨table, store⟩ m key = languageEntry ⟨table', store⟩ m' key := by
  have hne : (key == "parser") = false := by
    rw [beq_eq_false_iff_ne]
    rintro rfl
    exact hk (by decide)
  simp only [languageEntry, h.others key hk, hne]
  rfl

theorem parserEntry : Keywise (Only (.str "parser") store.SameMembers)
    (languageEntry ⟨table, store⟩ m "parser") (languageEntry ⟨table', store⟩ m' "parser") := by
  have hparser := h.parser
  unfold languageEntry
  generalize Entries.field? m "parser" = parser, Entries.field? m' "parser" = parser' at hparser
  cases hparser with
  | none => exact .nil
  | some hv => exact .cons ⟨rfl, .inr ⟨rfl, hv.definition⟩⟩ .nil

theorem ownLanguage : Keywise (Only (.str "parser") store.SameMembers) (ownLanguage ⟨table, store⟩ m)
    (ownLanguage ⟨table', store⟩ m') := by
  have hoptions : parserOptions? ⟨table, store⟩ m = parserOptions? ⟨table', store⟩ m' := by
    rw [parserOptions?, parserOptions?, h.at_eq _ (by decide)]
  have hglobals : languageEntry ⟨table, store⟩ m "globals" = languageEntry ⟨table', store⟩ m' "globals" :=
    h.languageEntry_eq table table' (by decide)
  rw [ownLanguage_eq, ownLanguage_eq, languageFront, languageFront, hglobals, hoptions, h.others "parserOptions" (by decide)]
  exact .append (.append (.refl Only.refl _) (h.parserEntry table table')) (.refl Only.refl _)

theorem ownOptions : Keywise (OwnRestated store) (ownOptions ⟨table, store⟩ m) (ownOptions ⟨table', store⟩ m') := by
  have hselected : selected ["settings", "rules", "processor"] m = selected ["settings", "rules", "processor"] m' :=
    selected_congr fun key hkey => h.others key
      ((by decide : ∀ key ∈ ["settings", "rules", "processor"], key ∉ recordKeys) key hkey)
  have hlinter : linterOptions m = linterOptions m' :=
    selected_congr fun key hkey => h.others key
      ((by decide : ∀ key ∈ ["noInlineConfig", "reportUnusedDisableDirectives"], key ∉ recordKeys) key hkey)
  have hlanguage := h.ownLanguage table table'
  have hgroup : Keywise (OwnRestated store) (group "languageOptions" (Conversion.ownLanguage ⟨table, store⟩ m))
      (group "languageOptions" (Conversion.ownLanguage ⟨table', store⟩ m')) := by
    rw [group, group, hlanguage.isEmpty]
    split
    · exact .nil
    · exact .cons ⟨rfl, .language hlanguage⟩ .nil
  show Keywise _ (selected _ m ++ group "languageOptions" (Conversion.ownLanguage ⟨table, store⟩ m) ++ _)
    (selected _ m' ++ group "languageOptions" (Conversion.ownLanguage ⟨table', store⟩ m') ++ _)
  rw [hselected, hlinter]
  exact .append (.append (.refl .same _) hgroup) (.refl .same _)

theorem ownForm : Keywise (OwnRestated store) (ownForm ⟨table, store⟩ m) (ownForm ⟨table', store⟩ m') := by
  have hpairs := pairsOf_restated table table' h.criteria
  have hfiles : filesUnder ⟨table, store⟩ (pairsOf ⟨table, store⟩ (m.at "criteria")) =
      filesUnder ⟨table', store⟩ (pairsOf ⟨table', store⟩ (m'.at "criteria")) :=
    congrArg List.getLast? (filterMap_eq_of_forall₂ hpairs fun _ _ => filesOf_restated)
  have hignores : ignoresUnder ⟨table, store⟩ (pairsOf ⟨table, store⟩ (m.at "criteria")) =
      ignoresUnder ⟨table', store⟩ (pairsOf ⟨table', store⟩ (m'.at "criteria")) :=
    congrArg List.getLast? (filterMap_eq_of_forall₂ hpairs fun _ _ => ignoresOf_restated)
  have hplugins : store.truthy (m.at "plugins") = store.truthy (m'.at "plugins") := h.plugins.truthy
  rw [Conversion.ownForm, Conversion.ownForm, withPatterns, withPatterns, hfiles, hignores, hplugins]
  refine .append (.append (.append (h.ownOptions table table') (.refl .same _)) (.refl .same _)) ?_
  split
  · exact .cons ⟨rfl, .plugins (h.definitionsOf table table')⟩ .nil
  · exact .nil

theorem ownItems (hm : Shaped ⟨table, store⟩ m) :
    List.Forall₂ (ItemRestated store) (ownItems ⟨table, store⟩ m) (ownItems ⟨table', store⟩ m') := by
  have hm' : Shaped ⟨table', store⟩ m' := h.shaped table table' hm
  have hown := h.ownForm table table'
  rw [Conversion.ownItems, Conversion.ownItems, ownEntries_form (applyCriteria_ok hm.criteria _),
    ownEntries_form (applyCriteria_ok hm'.criteria _), hown.isEmpty]
  split
  · exact .nil
  · exact .cons (.own hown) .nil

end EntriesRestated

/-! ## Environments -/

/-- Tables whose fragments are restated. -/
def SameTable (store : Shared) (table table' : Environment.Table) : Prop :=
  Keywise (fun _ => SameNode store) table.entries table'.entries

/-- The fragment that a name stands for, in the table first. -/
def found? (s : Setting) (named : List (String × Value)) (name : String) : Option Value :=
  (s.table.get? (.str name)).or (named.reverse.lookup name)

/-- The steps of a node are its enabled names that stand for a fragment. -/
theorem mem_steps {s : Setting} {named : List (String × Value)} {env : Entries} {name : String} {fragment : Value} :
    (name, fragment) ∈ steps s named env ↔ name ∈ enabledNames s env ∧ found? s named name = some fragment := by
  have hpair : ∀ (o : Option Value) n, o.map (n, ·) = some (name, fragment) ↔ n = name ∧ o = some fragment := by
    intro o n
    cases o <;> simp
  simp only [steps, tableFragments, pluginFragments, List.mem_append, List.mem_filterMap, hpair, found?,
    Option.or_eq_some_iff]
  grind

theorem mem_steps_cons {s : Setting} {named : List (String × Value)} {e : Value × Value} {rest : Entries}
    {f : String × Value} (hf : f ∈ steps s named rest) : f ∈ steps s named (e :: rest) := by
  obtain ⟨hname, hfound⟩ := mem_steps.mp hf
  refine mem_steps.mpr ⟨?_, hfound⟩
  rw [enabledNames, List.filterMap_cons]
  split
  · exact hname
  · exact List.mem_cons_of_mem _ hname

theorem SameTable.get? (h : SameTable store table table') (name : String) :
    Option.Rel (SameNode store) (table.get? (.str name)) (table'.get? (.str name)) :=
  Keywise.field? h name

theorem found?_restated (ht : SameTable store table table') {named named' : List (String × Value)}
    (hn : Keywise (fun _ => SameNode store) named named') (name : String) :
    Option.Rel (SameNode store) (found? ⟨table, store⟩ named name) (found? ⟨table', store⟩ named' name) := by
  have htable := ht.get? name
  simp only [found?]
  generalize table.get? (.str name) = x, table'.get? (.str name) = x' at htable
  cases htable with
  | some hx => exact .some hx
  | none => exact hn.reverse.lookup name

/-- Fragments that are expanded alike leave the items of a node alike. -/
theorem foldEnvironments_restated (ht : SameTable store table table') {named named' : List (String × Value)}
    (hn : Keywise (fun _ => SameNode store) named named') {expand expand' : Value → Value → Logged (Precedence Value)}
    {env : Entries} (names : ∀ e ∈ env, store.truthy e.2 = true → ∃ name, e.1 = .str name)
    (h : ∀ name fragment fragment', (name, fragment) ∈ steps ⟨table, store⟩ named env → SameNode store fragment fragment' →
      Matches Eq (ItemsRestated store) (expand (.str name) fragment).result (expand' (.str name) fragment').result)
    {items items' : Precedence Value} (hi : ItemsRestated store items items') :
    Matches Eq (ItemsRestated store) (foldEnvironments ⟨table, store⟩ expand named env items)
      (foldEnvironments ⟨table', store⟩ expand' named' env items') := by
  induction env generalizing items items' with
  | nil => exact hi
  | cons e rest ih =>
    have ihrest : ∀ {items items'}, ItemsRestated store items items' →
        Matches Eq (ItemsRestated store) (foldEnvironments ⟨table, store⟩ expand named rest items)
          (foldEnvironments ⟨table', store⟩ expand' named' rest items') :=
      ih (fun e he => names e (List.mem_cons_of_mem _ he)) fun name fragment fragment' hf =>
        h name fragment fragment' (mem_steps_cons hf)
    obtain ⟨key, enabled⟩ := e
    by_cases htruthy : store.truthy enabled = true
    · obtain ⟨name, rfl⟩ : ∃ name, key = .str name := names (key, enabled) (by simp) htruthy
      rw [foldEnvironments_enabled named rest name htruthy, foldEnvironments_enabled named' rest name htruthy]
      refine Matches.bind (Q := ItemsRestated store) ?_ fun a b hab => ihrest hab
      have hmem : ∀ fragment, found? ⟨table, store⟩ named name = some fragment →
          (name, fragment) ∈ steps ⟨table, store⟩ named ((.str name, enabled) :: rest) :=
        fun fragment hf => mem_steps.mpr ⟨by simp [enabledNames, htruthy, Value.str?], hf⟩
      have htable := ht.get? name
      have hnamed := hn.reverse.lookup name
      simp only [found?] at hmem
      dsimp only
      generalize table.get? (.str name) = x, table'.get? (.str name) = x', named.reverse.lookup name = y,
        named'.reverse.lookup name = y' at htable hnamed hmem
      cases htable with
      | some hx => exact (h name _ _ (hmem _ rfl) hx).map fun a b hab => List.rel_append hab hi
      | none =>
        cases hnamed with
        | some hy => exact (h name _ _ (hmem _ rfl) hy).map fun a b hab => List.rel_append hi hab
        | none => exact hi
    · rw [foldEnvironments_disabled named rest htruthy, foldEnvironments_disabled named' rest htruthy]
      exact ihrest hi

/-! ## Conversions in step -/

/-- What a restated node enters is what the node enters, restated. -/
theorem SameNode.enters (ht : SameTable store table table') (h : SameNode store node node')
    (hm : store.view node = .mapping m) {name : String} {fragment' : Value}
    (he : Enters ⟨table', store⟩ node' name fragment') :
    ∃ fragment, Enters ⟨table, store⟩ node name fragment ∧ SameNode store fragment fragment' := by
  obtain ⟨m', hm', hsame⟩ := h.view hm
  obtain ⟨_, hv, hall, hrec, hstep⟩ := he
  cases hm'.symm.trans hv
  obtain ⟨hname, hfound⟩ := mem_steps.mp hstep
  have hrel := found?_restated ht (hsame.namedEnvironments table table') name
  rw [hfound] at hrel
  generalize hf : found? ⟨table, store⟩ (namedEnvironments ⟨table, store⟩ m) name = found at hrel
  cases hrel with
  | some hfragment =>
    refine ⟨_, ⟨m, hm, ?_, ?_, mem_steps.mpr ⟨?_, hf⟩⟩, hfragment⟩
    · rw [hsame.asksFor_eq table table', hall]
    · rw [hsame.asksFor_eq table table', hrec]
    · rw [hsame.envOf_eq table table']
      exact hname

theorem SameNode.wellShaped (ht : SameTable store table table') (h : SameNode store node node')
    (hw : WellShaped ⟨table, store⟩ node) : WellShaped ⟨table', store⟩ node' := by
  refine .of_invariant (fun v' => ∃ v, SameNode store v v' ∧ WellShaped ⟨table, store⟩ v) ⟨node, h, hw⟩ ?_ ?_
  · rintro v' ⟨v, hv, hshape⟩
    obtain ⟨m, hm, hentries⟩ := hshape [] v (.here v)
    obtain ⟨m', hm', hsame⟩ := hv.view hm
    exact ⟨m', hm', hsame.shaped table table' hentries⟩
  · rintro v' name fragment' ⟨v, hv, hshape⟩ he
    obtain ⟨m, hm, -⟩ := hshape [] v (.here v)
    obtain ⟨fragment, hstep, hfragment⟩ := hv.enters ht hm he
    exact ⟨fragment, hfragment, hshape.enters hstep⟩

/-- With the same fuel both conversions end alike. -/
theorem reached_restated (ht : SameTable store table table') (fuel : Nat) (chain : List String)
    (h : SameNode store node node') (hw : WellShaped ⟨table, store⟩ node) :
    Matches Eq (ItemsRestated store) (reached ⟨table, store⟩ fuel chain node) (reached ⟨table', store⟩ fuel chain node') := by
  induction fuel generalizing chain node node' with
  | zero => exact rfl
  | succ fuel ih =>
    obtain ⟨m, hm, hshape⟩ := hw [] node (.here node)
    obtain ⟨m', hm', hsame⟩ := h.view hm
    obtain ⟨expand, hx, hr⟩ := reached_succ fuel chain hm hshape
    obtain ⟨expand', hx', hr'⟩ := reached_succ fuel chain hm' (hsame.shaped table table' hshape)
    rw [hr, hr', ← hsame.asksFor_eq table, ← hsame.asksFor_eq table]
    by_cases hall : asksFor ⟨table, store⟩ m allRules = true
    · rw [if_pos hall, if_pos hall]
      exact itemsRestated_same _
    by_cases hrec : asksFor ⟨table, store⟩ m recommendedRules = true
    · rw [if_neg hall, if_neg hall, if_pos hrec, if_pos hrec]
      exact itemsRestated_same _
    rw [if_neg hall, if_neg hall, if_neg hrec, if_neg hrec, ← hsame.envOf_eq table, ← hsame.front_eq table]
    refine (foldEnvironments_restated ht (hsame.namedEnvironments table table') hshape.envNames ?_ (itemsRestated_same _)).map
      fun items items' hitems => List.rel_append hitems (hsame.ownItems table table' hshape)
    intro name fragment fragment' hstep hfragment
    have he : Enters ⟨table, store⟩ node name fragment :=
      (enters_iff hm (by simpa using hall) (by simpa using hrec)).mpr hstep
    rw [hx (name, fragment), hx' (name, fragment'), entered, entered]
    split
    · exact rfl
    · exact ih _ hfragment (hw.enters he)

/-- A conversion is the one with any fuel that suffices. -/
theorem convert_eq_reached {s : Setting} (hw : WellShaped s node) {fuel : Nat} (hle : chainBound s node ≤ fuel) :
    (convert s node).result = (reached s fuel [] node).map (·.toList) := by
  have hleft := unused_namesAround s node []
  have hclosed := closed_namesAround s node
  have hnames := found_subset_namesAround s node
  rw [convert_result, translated,
    reached_fuel hw.legible hclosed hnames hleft hclosed hnames (Nat.lt_of_lt_of_le hleft hle)]

/-- A well-shaped node and a restated one, with tables that are restated, give the same items
but for definitions that are restated, or report the same cycle. -/
theorem convert_restated (ht : SameTable store table table') (h : SameNode store node node')
    (hw : WellShaped ⟨table, store⟩ node) :
    (∃ items items', (convert ⟨table, store⟩ node).result = .ok items ∧
      (convert ⟨table', store⟩ node').result = .ok items' ∧ List.Forall₂ (ItemRestated store) items items') ∨
    ∃ cycle, (convert ⟨table, store⟩ node).result = .error (.problem (.environmentCycle cycle)) ∧
      (convert ⟨table', store⟩ node').result = .error (.problem (.environmentCycle cycle)) := by
  -- the bounds of the two conversions differ, and what is above both suffices for either
  let fuel := max (chainBound ⟨table, store⟩ node) (chainBound ⟨table', store⟩ node')
  have hmatches := reached_restated ht fuel [] h hw
  have hresult := convert_eq_reached hw (Nat.le_max_left _ _ : _ ≤ fuel)
  have hresult' := convert_eq_reached (h.wellShaped ht hw) (Nat.le_max_right _ _ : _ ≤ fuel)
  cases hr : reached ⟨table, store⟩ fuel [] node with
  | ok items =>
    rw [hr] at hmatches hresult
    obtain ⟨items', hr', hitems⟩ := hmatches.ok rfl
    rw [hr'] at hresult'
    exact .inl ⟨_, _, hresult, hresult', hitems⟩
  | error e =>
    rw [hr] at hmatches hresult
    rcases convert_legible hw.legible with ⟨items, hok⟩ | ⟨cycle, hcycle⟩
    · cases hok.symm.trans hresult
    · cases hcycle.symm.trans hresult
      cases hr' : reached ⟨table', store⟩ fuel [] node' with
      | ok items' => rw [hr'] at hmatches; exact hmatches.elim
      | error e' =>
        rw [hr'] at hmatches hresult'
        cases hmatches
        exact .inr ⟨cycle, hcycle, hresult'⟩

/-! A node all of whose records are mappings, also in an environment of its plugin and of the table,
and the same node with objects in their place. -/

def representedFragment (record : List (String × Value) → Value) : Value := .mapping [
  (.str "plugins", .mapping [(.str "q", record [
    ("definition", record [("processors", .mapping [(.str ".md", .str "markdown")])])])]),
  (.str "criteria", record [("patterns", .list [record [("excludes", .list [.str "lib"])]])])]

def representedNode (record : List (String × Value) → Value) : Value := .mapping [
  (.str "parser", record [("id", .str "r"), ("definition", record [("parse", .str "r.parse")])]),
  (.str "plugins", .mapping [(.str "p", record [
    ("definition", record [("environments", .mapping [(.str "x", representedFragment record)])])])]),
  (.str "ignorePattern", record [("patterns", .list [.str "out"])]),
  (.str "env", .mapping (switchedOn ["a", "p/x"]))]

def representedTable (record : List (String × Value) → Value) : Environment.Table :=
  ⟨[(.str "a", representedFragment record)]⟩

theorem sameNode_representedFragment :
    SameNode store (representedFragment Shared.asMapping) (representedFragment Shared.asObject) := by
  have hpattern : store.SameMembers (Shared.asMapping [("excludes", .list [.str "lib"])])
      (Shared.asObject [("excludes", .list [.str "lib"])]) :=
    .represented (.refl (fun _ _ => rfl) _) fun _ _ => rfl
  have hdefinition : SameDefinition store (SameNode store)
      (Shared.asMapping [("processors", .mapping [(.str ".md", .str "markdown")])])
      (Shared.asObject [("processors", .mapping [(.str ".md", .str "markdown")])]) :=
    .represented (.refl Only.refl _) Only.refl
  refine .entries rfl rfl {
    others := fun key hkey => ?_
    parser := .none
    ignorePattern := .same .null
    criteria := .represented (.cons ⟨rfl, .inr ⟨rfl, .list rfl rfl (.cons hpattern .nil)⟩⟩ .nil) Only.refl
    plugins := .entries rfl rfl
      (.cons ⟨rfl, .represented (.cons ⟨rfl, .inr ⟨rfl, hdefinition⟩⟩ .nil) Only.refl⟩ .nil) }
  simp only [recordKeys, List.mem_cons, not_or] at hkey
  simp [Entries.field?, Entries.get?, Ne.symm hkey.2.2.1, Ne.symm hkey.2.2.2.1]

theorem sameNode_representedNode :
    SameNode store (representedNode Shared.asMapping) (representedNode Shared.asObject) := by
  have hparser : SameParser store
      (Shared.asMapping [("id", .str "r"), ("definition", Shared.asMapping [("parse", .str "r.parse")])])
      (Shared.asObject [("id", .str "r"), ("definition", Shared.asObject [("parse", .str "r.parse")])]) :=
    .represented (.cons ⟨rfl, .inl rfl⟩
      (.cons ⟨rfl, .inr ⟨rfl, .represented (.refl (fun _ _ => rfl) _) fun _ _ => rfl⟩⟩ .nil)) Only.refl
  have hdefinition : SameDefinition store (SameNode store)
      (Shared.asMapping [("environments", .mapping [(.str "x", representedFragment Shared.asMapping)])])
      (Shared.asObject [("environments", .mapping [(.str "x", representedFragment Shared.asObject)])]) :=
    .represented (.cons ⟨rfl, .inr ⟨rfl, .entries rfl rfl (.cons ⟨rfl, sameNode_representedFragment⟩ .nil)⟩⟩ .nil) Only.refl
  refine .entries rfl rfl {
    others := fun key hkey => ?_
    parser := .some hparser
    ignorePattern := .represented (.refl (fun _ _ => rfl) _) fun _ _ => rfl
    criteria := .same .null
    plugins := .entries rfl rfl
      (.cons ⟨rfl, .represented (.cons ⟨rfl, .inr ⟨rfl, hdefinition⟩⟩ .nil) Only.refl⟩ .nil) }
  simp only [recordKeys, List.mem_cons, not_or] at hkey
  simp [Entries.field?, Entries.get?, Ne.symm hkey.1, Ne.symm hkey.2.1, Ne.symm hkey.2.2.2.1]

theorem wellShaped_representedNode :
    WellShaped ⟨representedTable Shared.asMapping, {}⟩ (representedNode Shared.asMapping) := by
  refine .of_invariant (· ∈ [representedNode Shared.asMapping, representedFragment Shared.asMapping]) (by simp) ?_ ?_
  · intro v hv
    simp only [List.mem_cons, List.not_mem_nil, or_false] at hv
    rcases hv with rfl | rfl <;> exact ⟨_, rfl, by decide⟩
  · rintro v name fragment hv ⟨m, hm, -, -, hf⟩
    simp only [List.mem_cons, List.not_mem_nil, or_false] at hv
    rcases hv with rfl | rfl <;> cases hm
    · have hs : (name, fragment) ∈
          [("a", representedFragment Shared.asMapping), ("p/x", representedFragment Shared.asMapping)] := hf
      simp only [List.mem_cons, Prod.mk.injEq, List.not_mem_nil, or_false] at hs
      rcases hs with ⟨-, rfl⟩ | ⟨-, rfl⟩ <;> simp
    · exact absurd (show (name, fragment) ∈ [] from hf) (by simp)

theorem convert_restated_representedNode :
    ∃ items items', (convert ⟨representedTable Shared.asMapping, {}⟩ (representedNode Shared.asMapping)).result = .ok items ∧
      (convert ⟨representedTable Shared.asObject, {}⟩ (representedNode Shared.asObject)).result = .ok items' ∧
      List.Forall₂ (ItemRestated {}) items items' := by
  have ht : SameTable {} (representedTable Shared.asMapping) (representedTable Shared.asObject) :=
    .cons ⟨rfl, sameNode_representedFragment⟩ .nil
  rcases convert_restated ht sameNode_representedNode wellShaped_representedNode with h | ⟨cycle, hcycle, -⟩
  · exact h
  · obtain ⟨items, hok⟩ : ∃ items,
        (convert ⟨representedTable Shared.asMapping, {}⟩ (representedNode Shared.asMapping)).result = .ok items := ⟨_, rfl⟩
    cases hcycle.symm.trans hok

end Cascade.Conversion
