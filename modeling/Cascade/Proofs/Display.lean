import Cascade.Flattener
import Cascade.Proofs.Action
import Cascade.Proofs.Conversion.Items
import Cascade.Proofs.Conversion.Restated

/-! # Items as plain data

The items of a conversion are displayed one by one: a name of a set of rules as it is,
the entries of any other item under the same keys in the same order. Plugins keep their
names, and options of the language their keys with the parser last. This goes well just
when the data that are left to display do not contain themselves. -/
namespace Cascade

theorem Keywise.keys {Q : Value → Value → Value → Prop} {m m' : Entries} (h : Keywise Q m m') :
    Entries.keys m' = Entries.keys m := by
  induction h with
  | nil => rfl
  | cons he _ ih => exact congrArg₂ List.cons he.1.symm ih

namespace Conversion

/-! ## What is displayed -/

/-- The keys whose values are not displayed as they are. -/
def ownDisplay : List String := ["plugins", "processor", "languageOptions"]

/-- The keys of options, that of a parser at the end. -/
def parserLast (options : Entries) : List Value :=
  Entries.keys (Entries.erase options (.str "parser")) ++ if Entries.hasField options "parser" then [.str "parser"] else []

/-- The values that are displayed as data for an entry of an item. -/
def dataOf : Value × Value → List Value
  | (.str "plugins", _) | (.str "processor", _) => []
  | (.str "languageOptions", .mapping options) => (Entries.erase options (.str "parser")).map Prod.snd
  | (_, v) => [v]

/-- The values that are displayed as data for an item. -/
def dataIn : Value → List Value
  | .mapping m => m.flatMap dataOf
  | _ => []

end Conversion

namespace Shared

open Conversion

variable {store : Shared} {v p : Value} {m : Entries} {key : String}

/-! ## Mappings -/

theorem finite_mapping : store.Finite (.mapping m) ↔ ∀ e ∈ m, store.Finite e.2 := by
  constructor
  · intro h e he
    exact h.inv (.held (List.mem_map_of_mem he))
  · intro h
    exact finite_of_held nofun (List.forall_mem_map.mpr h)

theorem keywise_plainPair {depth : Nat} {pairs : Entries} (ht : ∀ e ∈ m, ∃ name, e.1 = .str name)
    (h : m.mapM (store.plainPair depth) = .ok pairs) :
    Keywise (fun _ v p => store.plainTo depth v = .ok p) m pairs := by
  have hall := mapM_eq_ok_iff.mp h
  clear h
  induction hall with
  | nil => exact .nil
  | cons he _ ih =>
    obtain ⟨⟨name, hname⟩, hrest⟩ := List.forall_mem_cons.mp ht
    obtain ⟨p, hp, rfl⟩ := map_eq_ok.mp he
    exact .cons ⟨by rw [hname]; rfl, hp⟩ (ih hrest)

/-- A mapping whose keys are texts keeps them. -/
theorem plain_textual (hk : m.Textual) (h : store.plain (.mapping m) = .ok p) :
    ∃ shown, p = .mapping shown ∧ Keywise (fun _ v p => store.plain v = .ok p) m shown := by
  unfold plain at h
  rw [plainTo_mapping] at h
  obtain ⟨pairs, hpairs, rfl⟩ := map_eq_ok.mp h
  have hkeywise := keywise_plainPair hk.texts hpairs
  exact ⟨pairs, by rw [(hk.of_keys hkeywise.keys).ofPairs_eq], hkeywise⟩

/-! ## Entries -/

/-- What is displayed for the value under a key of an item. -/
def Displays (store : Shared) (key v p : Value) : Prop :=
  match key with
  | .str "plugins" => ∃ definitions names : Entries, v = .mapping definitions ∧ p = .mapping names ∧
      Entries.keys names = Entries.keys definitions
  | .str "processor" => ∃ text, p = .str text ∧ ∀ name, store.view v = .str name → text = name
  | .str "languageOptions" => ∃ options shown : Entries, v = .mapping options ∧ p = .mapping shown ∧
      Entries.keys shown = parserLast options ∧
      ∀ name, name ≠ "parser" →
        Option.Rel (fun v p => store.plain v = .ok p) (Entries.field? options name) (Entries.field? shown name)
  | _ => store.plain v = .ok p

theorem plainEntry_plugins {definitions : Entries} (hd : definitions.Textual) :
    store.plainEntry (.str "plugins") (.mapping definitions) = .ok (.str "plugins", .mapping
      (definitions.map fun e => (e.1, .str ("<plugin " ++ store.text e.1 ++ ">")))) := by
  have hhash : (Entries.keys definitions).all Value.isHashable = true := by
    rw [List.all_eq_true]
    intro k hk
    obtain ⟨e, he, rfl⟩ := List.mem_map.mp hk
    obtain ⟨name, hname⟩ := hd.texts e he
    rw [hname]
    rfl
  have hpairs : (Entries.keys definitions).map (fun n => (n, Value.str ("<plugin " ++ store.text n ++ ">"))) =
      definitions.map fun e => (e.1, .str ("<plugin " ++ store.text e.1 ++ ">")) := List.map_map
  have hkeys : Entries.keys (definitions.map fun e => (e.1, Value.str ("<plugin " ++ store.text e.1 ++ ">"))) =
      Entries.keys definitions := List.map_map
  rw [plainEntry]
  simp only [itemsOf, view, ok_bind]
  rw [if_pos hhash, hpairs, (hd.of_keys hkeys).ofPairs_eq]
  rfl

theorem plainEntry_processor (store : Shared) (v : Value) : ∃ text, store.plainEntry (.str "processor") v =
    .ok (.str "processor", .str text) ∧ ∀ name, store.view v = .str name → text = name := by
  rw [plainEntry]
  split
  · rename_i name hname
    exact ⟨name, rfl, fun other hother => Value.str.inj (hname.symm.trans hother)⟩
  · rename_i hother
    exact ⟨_, rfl, fun name hname => absurd hname (hother name)⟩

theorem hasParser_mapping (options : Entries) :
    store.hasParser (.mapping options) = .ok (Entries.hasField options "parser") := rfl

/-- Options without a parser are displayed under their keys. -/
theorem displays_options {options shown : Entries} (hf : Entries.hasField options "parser" = false)
    (h : Keywise (fun _ v p => store.plain v = .ok p) options shown) :
    Displays store (.str "languageOptions") (.mapping options) (.mapping shown) := by
  refine ⟨options, shown, rfl, rfl, ?_, fun name _ => h.field? name⟩
  rw [h.keys, parserLast, hf, Entries.erase_absent (Entries.hasField_eq_false.mp hf)]
  exact (List.append_nil _).symm

/-- A parser is described behind the options. -/
theorem displays_parserLast {options shown : Entries} (hf : Entries.hasField options "parser" = true)
    (h : Keywise (fun _ v p => store.plain v = .ok p) (Entries.erase options (.str "parser")) shown) (parser : Value) :
    Displays store (.str "languageOptions") (.mapping options) (.mapping (Entries.setField shown "parser" parser)) := by
  have habsent : Entries.field? shown "parser" = none := by
    have hrel := h.field? "parser"
    rw [Entries.field?_erase_self] at hrel
    cases hshown : Entries.field? shown "parser" with
    | none => rfl
    | some p => rw [hshown] at hrel; cases hrel
  refine ⟨options, _, rfl, rfl, ?_, fun name hne => ?_⟩
  · rw [Entries.setField_absent habsent, parserLast, if_pos hf, ← h.keys]
    exact List.map_append
  · have hrest : Entries.field? (Entries.erase options (.str "parser")) name = Entries.field? options name :=
      Entries.get?_erase_other (fun heq => hne (Value.str.inj heq)) options
    rw [Entries.field?_setField, if_neg (Ne.symm hne), ← hrest]
    exact h.field? name

theorem plainEntry_language {options : Entries} {e : Value × Value} (ho : options.Textual)
    (h : store.plainEntry (.str "languageOptions") (.mapping options) = .ok e) :
    e.1 = .str "languageOptions" ∧ Displays store (.str "languageOptions") (.mapping options) e.2 ∧ IsData e.2 := by
  rw [plainEntry, hasParser_mapping, ok_bind] at h
  split at h
  · rename_i hf
    obtain ⟨m, hm, h⟩ := bind_eq_ok.mp h
    cases hm
    obtain ⟨q, hq, h⟩ := bind_eq_ok.mp h
    obtain ⟨shown, rfl, hshown⟩ := plain_textual (ho.erase _) hq
    cases h
    refine ⟨rfl, displays_parserLast hf hshown _, ?_⟩
    cases isData_of_plainTo hq with
    | mapping hk hdata => exact .mapping (hk.setField _ _) (Entries.forall_mem_set hdata (.str _))
  · rename_i hf
    obtain ⟨q, hq, h⟩ := bind_eq_ok.mp h
    obtain ⟨shown, rfl, hshown⟩ := plain_textual ho hq
    cases h
    exact ⟨rfl, displays_options (Bool.eq_false_iff.mpr hf) hshown, isData_of_plainTo hq⟩

/-! Under any other key the plain data of the value are displayed. -/

section
variable {name : String}

theorem ne_of_not_mem_ownDisplay (h : name ∉ ownDisplay) :
    name ≠ "plugins" ∧ name ≠ "processor" ∧ name ≠ "languageOptions" := by
  simpa [ownDisplay] using h

theorem plainEntry_other (h : name ∉ ownDisplay) (v : Value) :
    store.plainEntry (.str name) v = (store.plain v).map (.str name, ·) := by
  obtain ⟨hp, hq, hl⟩ := ne_of_not_mem_ownDisplay h
  unfold plainEntry
  split
  · rename_i heq
    exact absurd (Value.str.inj heq) hp
  · rename_i heq
    exact absurd (Value.str.inj heq) hq
  · rename_i heq
    exact absurd (Value.str.inj heq) hl
  · rfl

theorem displays_other (h : name ∉ ownDisplay) : Displays store (.str name) v p ↔ store.plain v = .ok p := by
  obtain ⟨hp, hq, hl⟩ := ne_of_not_mem_ownDisplay h
  unfold Displays
  split
  · rename_i heq
    exact absurd (Value.str.inj heq) hp
  · rename_i heq
    exact absurd (Value.str.inj heq) hq
  · rename_i heq
    exact absurd (Value.str.inj heq) hl
  · rfl

theorem dataOf_other (h : name ∉ ownDisplay) (v : Value) : dataOf (.str name, v) = [v] := by
  obtain ⟨hp, hq, hl⟩ := ne_of_not_mem_ownDisplay h
  unfold dataOf
  split
  · rename_i heq
    exact absurd (Value.str.inj (Prod.mk.inj heq).1) hp
  · rename_i heq
    exact absurd (Value.str.inj (Prod.mk.inj heq).1) hq
  · rename_i heq
    exact absurd (Value.str.inj (Prod.mk.inj heq).1) hl
  · rename_i heq
    rw [(Prod.mk.inj heq).2]

end

/-! ## Any entry -/

/-- An entry of an item, by its key. -/
inductive EntryCases (v : Value) : String → Prop where
  | plugins {definitions : Entries} (hv : v = .mapping definitions) (h : definitions.Textual) : EntryCases v "plugins"
  | processor : EntryCases v "processor"
  | language {options : Entries} (hv : v = .mapping options) (h : options.Textual) : EntryCases v "languageOptions"
  | other {name : String} (h : name ∉ ownDisplay) : EntryCases v name

theorem entryCases {name : String} (hm : IsEntry m) (he : (.str name, v) ∈ m) : EntryCases v name := by
  have hfield := hm.textual.field?_of_mem he
  by_cases hname : name ∈ ownDisplay
  · simp only [ownDisplay, List.mem_cons, List.not_mem_nil, or_false] at hname
    rcases hname with rfl | rfl | rfl
    · obtain ⟨definitions, hv, hd⟩ := hm.plugins v hfield
      exact .plugins hv hd
    · exact .processor
    · obtain ⟨options, hv, ho⟩ := hm.language v hfield
      exact .language hv ho
  · exact .other hname

/-- An entry of an item is displayed under its key, as data. -/
theorem plainEntry_displays {name : String} {e : Value × Value} (hm : IsEntry m) (he : (.str name, v) ∈ m)
    (h : store.plainEntry (.str name) v = .ok e) :
    .str name = e.1 ∧ Displays store (.str name) v e.2 ∧ IsData e.2 := by
  cases entryCases hm he with
  | @plugins definitions hv hd =>
    subst hv
    rw [plainEntry_plugins hd] at h
    cases h
    have hkeys : Entries.keys (definitions.map fun e => (e.1, Value.str ("<plugin " ++ store.text e.1 ++ ">"))) =
        Entries.keys definitions := List.map_map
    exact ⟨rfl, ⟨_, _, rfl, rfl, hkeys⟩, .mapping (hd.of_keys hkeys) (List.forall_mem_map.mpr fun e _ => .str _)⟩
  | processor =>
    obtain ⟨text, htext, hname⟩ := plainEntry_processor store v
    rw [htext] at h
    cases h
    exact ⟨rfl, ⟨text, rfl, hname⟩, .str text⟩
  | language hv ho =>
    subst hv
    obtain ⟨hkey, hdisplays, hdata⟩ := plainEntry_language ho h
    exact ⟨hkey.symm, hdisplays, hdata⟩
  | other hname =>
    rw [plainEntry_other hname] at h
    obtain ⟨p, hp, rfl⟩ := map_eq_ok.mp h
    exact ⟨rfl, (displays_other hname).mpr hp, isData_of_plainTo hp⟩

theorem exists_plainEntry_language (options : Entries) :
    (∃ e, store.plainEntry (.str "languageOptions") (.mapping options) = .ok e) ↔
      ∀ v ∈ (Entries.erase options (.str "parser")).map Prod.snd, store.Finite v := by
  rw [List.forall_mem_map, ← finite_mapping, ← exists_plain, plainEntry, hasParser_mapping, ok_bind]
  split
  · constructor
    · intro h
      obtain ⟨e, h⟩ := h
      obtain ⟨m, hm, h⟩ := bind_eq_ok.mp h
      cases hm
      obtain ⟨p, hp, -⟩ := bind_eq_ok.mp h
      exact ⟨p, hp⟩
    · intro h
      obtain ⟨p, hp⟩ := h
      obtain ⟨pairs, -, rfl⟩ := map_eq_ok.mp ((plainTo_mapping _ _).symm.trans hp)
      have hentries : store.entriesOf (.mapping options) = .ok options := rfl
      exact ⟨_, by rw [hentries, ok_bind, hp]; rfl⟩
  · rename_i hf
    rw [Entries.erase_absent (Entries.hasField_eq_false.mp (Bool.eq_false_iff.mpr hf))]
    cases store.plain (.mapping options) with
    | error e => simp
    | ok p => simp

/-- Only data that contain themselves keep an entry from being displayed. -/
theorem exists_plainEntry {name : String} (hm : IsEntry m) (he : (.str name, v) ∈ m) :
    (∃ e, store.plainEntry (.str name) v = .ok e) ↔ ∀ part ∈ dataOf (.str name, v), store.Finite part := by
  cases entryCases hm he with
  | @plugins definitions hv hd =>
    subst hv
    rw [plainEntry_plugins hd]
    exact iff_of_true ⟨_, rfl⟩ nofun
  | processor =>
    obtain ⟨text, htext, -⟩ := plainEntry_processor store v
    rw [htext]
    exact iff_of_true ⟨_, rfl⟩ nofun
  | @language options hv ho =>
    subst hv
    exact exists_plainEntry_language options
  | other hname =>
    rw [plainEntry_other hname, dataOf_other hname, exists_map, exists_plain, List.forall_mem_singleton]

/-! ## Items -/

/-- What an item is displayed as. -/
inductive Shown (store : Shared) : Value → Value → Prop where
  | rules (name : String) : Shown store (.str name) (.str name)
  | entries {m shown : Entries} (h : Keywise (Displays store) m shown) (hd : IsData (.mapping shown)) :
      Shown store (.mapping m) (.mapping shown)

theorem plainItem_mapping (m : Entries) : store.plainItem (.mapping m) =
    (m.mapM fun e => store.plainEntry e.1 e.2).map .mapping := by
  have hview : store.view (.mapping m) = .mapping m := rfl
  have hentries : store.entriesOf (.mapping m) = .ok m := rfl
  unfold plainItem
  rw [hview]
  dsimp only
  rw [hentries, ok_bind]
  cases m.mapM fun e => store.plainEntry e.1 e.2 <;> rfl

theorem keywise_plainEntry {part shown : Entries} (hm : IsEntry m) (hsub : part ⊆ m)
    (h : part.mapM (fun e => store.plainEntry e.1 e.2) = .ok shown) :
    Keywise (Displays store) part shown ∧ ∀ e ∈ shown, IsData e.2 := by
  have hall := mapM_eq_ok_iff.mp h
  clear h
  induction hall with
  | nil => exact ⟨.nil, nofun⟩
  | @cons e e' _ _ hfirst _ ih =>
    obtain ⟨hmem, hrest⟩ := List.cons_subset.mp hsub
    obtain ⟨hkeywise, hdata⟩ := ih hrest
    obtain ⟨name, hname⟩ := hm.textual.texts e hmem
    obtain ⟨key, v⟩ := e
    obtain rfl : key = .str name := hname
    obtain ⟨hkey, hdisplays, hd⟩ := plainEntry_displays hm hmem hfirst
    exact ⟨.cons ⟨hkey, hdisplays⟩ hkeywise, List.forall_mem_cons.mpr ⟨hd, hdata⟩⟩

theorem shown_of_plainItem (hi : IsItem v) (h : store.plainItem v = .ok p) : Shown store v p := by
  cases hi with
  | rules name =>
    cases h
    exact .rules name
  | @entry m hm =>
    rw [item, plainItem_mapping] at h
    obtain ⟨shown, hshown, rfl⟩ := map_eq_ok.mp h
    obtain ⟨hkeywise, hdata⟩ := keywise_plainEntry hm (List.Subset.refl m) hshown
    exact .entries hkeywise (.mapping (hm.textual.of_keys hkeywise.keys) hdata)

theorem exists_plainItem (hi : IsItem v) : (∃ p, store.plainItem v = .ok p) ↔ ∀ part ∈ dataIn v, store.Finite part := by
  cases hi with
  | rules name => exact iff_of_true ⟨_, rfl⟩ nofun
  | @entry m hm =>
    rw [item, plainItem_mapping, exists_map, exists_mapM, dataIn]
    simp only [List.forall_mem_flatMap]
    refine forall₂_congr fun e he => ?_
    obtain ⟨name, hname⟩ := hm.textual.texts e he
    obtain ⟨key, v⟩ := e
    obtain rfl : key = .str name := hname
    exact exists_plainEntry hm he

/-- What plain data are. -/
structure Plains (store : Shared) : Prop where
  /-- The values that have plain data are those that do not contain themselves. -/
  finite : ∀ v, (∃ p, store.plain v = .ok p) ↔ store.Finite v
  data : ∀ v p, store.plain v = .ok p → IsData p
  /-- Plain data are their own plain data, with all keys in their order. -/
  same : ∀ v, IsData v → store.plain v = .ok v
  twice : ∀ v p, store.plain v = .ok p → store.plain p = .ok p
  /-- A reference has the plain data of what it stands for. -/
  shared : ∀ name p, store.plain (.shared name) = .ok p ↔ store.plain (store.view (.shared name)) = .ok p

theorem plains (store : Shared) : Plains store where
  finite _ := exists_plain
  data _ _ := isData_of_plainTo
  same _ h := plainTo_of_isData h _
  twice _ _ h := plainTo_of_isData (isData_of_plainTo h) _
  shared name _ := plain_shared name

/-! ## All items -/

/-- What items are displayed as. -/
structure Display (store : Shared) (items : List Value) : Prop where
  /-- Items are displayed when none of the data in them contain themselves. -/
  displayed : (∃ shown, store.plainConfig items = .ok shown) ↔ ∀ v ∈ items, ∀ part ∈ dataIn v, store.Finite part
  /-- Each item is displayed in its place. -/
  shown : ∀ shown, store.plainConfig items = .ok shown → List.Forall₂ store.Shown items shown

theorem display_of_isItem {items : List Value} (h : ∀ v ∈ items, IsItem v) : store.Display items := by
  refine ⟨?_, fun shown hshown => ?_⟩
  · rw [plainConfig, exists_mapM]
    exact forall₂_congr fun v hv => exists_plainItem (h v hv)
  · have hall := mapM_eq_ok_iff.mp hshown
    clear hshown
    induction hall with
    | nil => exact .nil
    | cons hfirst _ ih =>
      obtain ⟨hv, hrest⟩ := List.forall_mem_cons.mp h
      exact .cons (shown_of_plainItem hv hfirst) (ih hrest)

end Shared

namespace Conversion

theorem convert_displayed {s : Setting} {node : Value} {items : List Value}
    (h : (convert s node).result = .ok items) : s.shared.Plains ∧ s.shared.Display items :=
  ⟨s.shared.plains, Shared.display_of_isItem (isItem_of_convert h)⟩

theorem convert_displayed_options :
    (convert sampleSetting (.mapping optionsEntries)).result = .ok [item optionsItem] ∧
      sampleSetting.shared.Plains ∧ sampleSetting.shared.Display [item optionsItem] := by
  have hr : (convert sampleSetting (.mapping optionsEntries)).result = .ok [item optionsItem] := rfl
  exact ⟨hr, convert_displayed hr⟩

example : Shared.plainConfig {} [item optionsItem] = .ok [.mapping [
    (.str "rules", .mapping [(.str "semi", .int 2)]),
    (.str "languageOptions", .mapping [
      (.str "parserOptions", .mapping [(.str "ecmaFeatures", .mapping [(.str "jsx", .bool true)])]),
      (.str "ecmaVersion", .int 2020), (.str "sourceType", .str "module"), (.str "parser", .str "<str>")]),
    (.str "linterOptions", .mapping [(.str "noInlineConfig", .bool true)])]] := rfl

/-! Settings that contain themselves. -/

def endlessStore : Shared := ⟨[("loop", .mapping [(.str "self", .shared "loop")])]⟩

def endlessNode : Value := .mapping [(.str "settings", .shared "loop")]

theorem convert_not_displayed : ∃ items, (convert ⟨⟨[]⟩, endlessStore⟩ endlessNode).result = .ok items ∧
    endlessStore.plainConfig items = .error .endless :=
  ⟨_, rfl, rfl⟩

end Conversion

/-! ## Flattened configurations -/

namespace Flattener

open Conversion

variable {f : Flattener}

/-- An action of which only the result is of interest. -/
def Gives {α : Type} (a : Action α) (Q : α → Prop) : Prop := Yields (fun _ => True) (fun _ => True) a Q

theorem gives_any {α : Type} (a : Action α) : Gives a fun _ => True := by
  intro s _
  refine ⟨trivial, ?_⟩
  cases (a.runFrom s).1 <;> trivial

theorem ofLogged_gives {α : Type} {x : Logged α} {Q : α → Prop} (h : ∀ y, x.result = .ok y → Q y) :
    Gives (Action.ofLogged x) Q := by
  intro s _
  have hrun : ((Action.ofLogged x).runFrom s).1 = x.result := rfl
  refine ⟨trivial, ?_⟩
  rw [hrun]
  cases hx : x.result with
  | ok y => exact h y hx
  | error e => trivial

theorem itemsOf_gives (e : Element) : Gives (f.itemsOf e) fun items => ∀ v ∈ items, IsItem v := by
  unfold itemsOf
  split
  · exact (gives_any _).bind fun _ _ => ofLogged_gives fun _ => isItem_of_convert
  · exact (gives_any _).bind fun _ _ => .pure nofun

theorem flatten_gives (elements : List Element) :
    Gives (f.flatten elements) fun items => ∀ v ∈ items, IsItem v := by
  unfold flatten
  refine (Yields.mapM fun e _ => itemsOf_gives e).bind fun itemss h => .pure fun v hv => ?_
  obtain ⟨items, hitems, hv⟩ := List.mem_flatten.mp hv
  exact h items hitems v hv

theorem config_gives (config : Value) : Gives (f.config config) fun items => ∀ v ∈ items, IsItem v :=
  (gives_any _).bind fun elements _ => flatten_gives elements

theorem configFile_gives (file : Path) : Gives (f.configFile file) fun items => ∀ v ∈ items, IsItem v :=
  (gives_any _).bind fun elements _ => flatten_gives elements

theorem display_of_gives {a : Action (List Value)} (ha : Gives a fun items => ∀ v ∈ items, IsItem v)
    {s t : Session} {items : List Value} (h : a.runFrom s = (.ok items, t)) (store : Shared) :
    store.Display items := by
  obtain ⟨-, hr⟩ := ha s trivial
  rw [h] at hr
  exact Shared.display_of_isItem hr

/-- What a configuration or a file is flattened to can be displayed. -/
theorem display_of_flattened (f : Flattener) {s t : Session} {items : List Value} (store : Shared) :
    (∀ config, (f.config config).runFrom s = (.ok items, t) → store.Display items) ∧
      ∀ file, (f.configFile file).runFrom s = (.ok items, t) → store.Display items :=
  ⟨fun config h => display_of_gives (config_gives config) h store,
    fun file h => display_of_gives (configFile_gives file) h store⟩

end Flattener

end Cascade
