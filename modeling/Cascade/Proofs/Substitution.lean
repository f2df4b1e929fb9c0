import Cascade.Settings
import Cascade.Proofs.Tree
import Mathlib.Data.List.TakeWhile

/-! # References to environment variables

A text is read from left to right in one way: as characters that stand for
themselves and references to variables. Substitution puts the values of the
variables in the places of the references. What it leaves has the same pieces, so
that no reference comes about where a value meets the text around it, unless the
value is empty or brings a part of a reference along. -/
namespace Cascade.Settings

/-- A piece of a text: a character that stands for itself, or a reference to a variable. -/
inductive Piece where
  | kept (c : Char)
  | reference (name : List Char)

/-- The characters of a piece in its text. -/
def Piece.written : Piece → List Char
  | .kept c => [c]
  | .reference name => '$' :: '\x7b' :: (name ++ ['\x7d'])

/-- The characters that a piece stands for. -/
def Piece.read (bindings : List (String × String)) : Piece → List Char
  | .kept c => [c]
  | .reference name => match bindings.lookup (String.ofList name) with
    | some v => v.toList
    | none => (reference name).written

/-- Whether a text begins with a reference: an opening, a character that is no closing
brace, and a closing brace after it. -/
def Begins (cs : List Char) : Prop :=
  ∃ c rest, cs = '$' :: '\x7b' :: c :: rest ∧ c ≠ '\x7d' ∧ '\x7d' ∈ rest

/-- The pieces of a text from left to right. A reference goes up to the first closing
brace after its name. -/
inductive Reading : List Char → List Piece → Prop where
  | nil : Reading [] []
  | kept {c : Char} {rest : List Char} {pieces : List Piece} (hb : ¬ Begins (c :: rest))
      (h : Reading rest pieces) : Reading (c :: rest) (.kept c :: pieces)
  | reference {name after : List Char} {pieces : List Piece} (hn : name ≠ []) (hc : '\x7d' ∉ name)
      (h : Reading after pieces) :
      Reading ('$' :: '\x7b' :: (name ++ '\x7d' :: after)) (.reference name :: pieces)

variable {bindings : List (String × String)} {cs rest name after : List Char} {pieces : List Piece}

/-! ## Where a reference begins -/

/-- A reference is found with its whole name. -/
theorem reference?_of_name (hn : name ≠ []) (hc : '\x7d' ∉ name) (after : List Char) :
    reference? ('$' :: '\x7b' :: (name ++ '\x7d' :: after)) = some (name, after) := by
  have hfree : ∀ c ∈ name, (c != '\x7d') = true := by
    intro c hmem
    have hne : c ≠ '\x7d' := fun heq => hc (heq ▸ hmem)
    simpa using hne
  have htake : (name ++ '\x7d' :: after).takeWhile (· != '\x7d') = name := by
    simp [List.takeWhile_append_of_pos hfree]
  have hdrop : (name ++ '\x7d' :: after).dropWhile (· != '\x7d') = '\x7d' :: after := by
    simp [List.dropWhile_append_of_pos hfree]
  simp [reference?, htake, hdrop, hn]

theorem reference?_eq_some : reference? cs = some (name, after) ↔
    name ≠ [] ∧ '\x7d' ∉ name ∧ cs = '$' :: '\x7b' :: (name ++ '\x7d' :: after) := by
  constructor
  · intro h
    unfold reference? at h
    split at h
    · rename_i rest
      have hsplit := List.takeWhile_append_dropWhile (p := (· != '\x7d')) (l := rest)
      split at h
      · rename_i close after' hdrop
        dsimp only at h
        split at h
        · cases h
        · rename_i hname
          obtain ⟨rfl, rfl⟩ := Prod.mk.inj (Option.some.inj h)
          have hclose : close = '\x7d' := by
            have := List.head?_dropWhile_not (· != '\x7d') rest
            rw [hdrop] at this
            simpa using this
          refine ⟨by simpa using hname, fun hmem => ?_, ?_⟩
          · simpa using List.mem_takeWhile_imp hmem
          · rw [hdrop, hclose] at hsplit
            exact congrArg (fun l => '$' :: '\x7b' :: l) hsplit.symm
      · cases h
    · cases h
  · intro h
    obtain ⟨hn, hc, rfl⟩ := h
    exact reference?_of_name hn hc after

theorem begins_iff : Begins cs ↔ ∃ name after, reference? cs = some (name, after) := by
  constructor
  · intro h
    obtain ⟨c, rest, rfl, hc, hmem⟩ := h
    obtain ⟨front, after, rfl, hfront⟩ := List.eq_append_cons_of_mem hmem
    exact ⟨c :: front, after, reference?_eq_some.mpr ⟨by simp, by simp [hfront, Ne.symm hc], rfl⟩⟩
  · intro h
    obtain ⟨name, after, h⟩ := h
    obtain ⟨hn, hc, rfl⟩ := reference?_eq_some.mp h
    obtain ⟨c, name, rfl⟩ := List.exists_cons_of_ne_nil hn
    exact ⟨c, name ++ '\x7d' :: after, rfl, fun heq => hc (by simp [heq]), by simp⟩

theorem reference?_eq_none : reference? cs = none ↔ ¬ Begins cs := by
  rw [begins_iff, Option.eq_none_iff_forall_ne_some]
  simp

/-! ## Readings -/

/-- A text is read in no two ways. -/
theorem Reading.unique {pieces' : List Piece} (h : Reading cs pieces) (h' : Reading cs pieces') :
    pieces = pieces' := by
  induction h generalizing pieces' with
  | nil => cases h'; rfl
  | kept hb h ih =>
    cases h' with
    | kept _ h' => rw [ih h']
    | reference hn hc h' =>
      exact absurd (begins_iff.mpr ⟨_, _, reference?_of_name hn hc _⟩) hb
  | @reference name after pieces hn hc h ih =>
    have hfound := reference?_of_name hn hc after
    generalize htext : '$' :: '\x7b' :: (name ++ '\x7d' :: after) = text at h' hfound
    cases h' with
    | nil => cases htext
    | kept hb _ => exact absurd (begins_iff.mpr ⟨_, _, hfound⟩) hb
    | reference hn' hc' h' =>
      rw [reference?_of_name hn' hc'] at hfound
      obtain ⟨rfl, rfl⟩ := Prod.mk.inj (Option.some.inj hfound)
      rw [ih h']

/-- Every text is read, and substitution goes along. -/
theorem exists_reading (bindings : List (String × String)) (cs : List Char) :
    ∃ pieces, Reading cs pieces ∧ substituteText bindings cs = pieces.flatMap (Piece.read bindings) := by
  fun_induction substituteText bindings cs with
  | case1 => exact ⟨[], .nil, rfl⟩
  | case2 c rest name after hfound ih =>
    obtain ⟨hn, hc, htext⟩ := reference?_eq_some.mp hfound
    obtain ⟨pieces, hpieces, hread⟩ := ih
    refine ⟨.reference name :: pieces, htext ▸ .reference hn hc hpieces, ?_⟩
    rw [hread, List.flatMap_cons, Piece.read]
    congr 1
  | case3 c rest hnone ih =>
    obtain ⟨pieces, hpieces, hread⟩ := ih
    exact ⟨.kept c :: pieces, .kept (reference?_eq_none.mp hnone) hpieces, by rw [hread]; rfl⟩

theorem Reading.replaced (h : Reading cs pieces) :
    substituteText bindings cs = pieces.flatMap (Piece.read bindings) := by
  obtain ⟨pieces', h', hread⟩ := exists_reading bindings cs
  rw [hread, h'.unique h]

/-- Nothing of a text is lost in its pieces. -/
theorem Reading.written (h : Reading cs pieces) : pieces.flatMap Piece.written = cs := by
  induction h with
  | nil => rfl
  | kept _ _ ih => rw [List.flatMap_cons, ih]; rfl
  | reference _ _ _ ih => rw [List.flatMap_cons, ih]; simp [Piece.written]

/-! ## Reading what substitution leaves -/

/-- A value of a variable that brings no part of a reference along. -/
def Harmless (value : String) : Prop := value ≠ "" ∧ '$' ∉ value.toList ∧ '\x7b' ∉ value.toList

/-- The pieces that a piece leaves. The characters of a value stand for themselves. -/
def Piece.left (bindings : List (String × String)) : Piece → List Piece
  | .kept c => [.kept c]
  | .reference name => match bindings.lookup (String.ofList name) with
    | some v => v.toList.map .kept
    | none => [.reference name]

/-- What pieces leave stands for what they stood for. -/
theorem Piece.read_left (p : Piece) : (p.left bindings).flatMap (Piece.read bindings) = p.read bindings := by
  cases p with
  | kept c => rfl
  | reference name =>
    cases h : bindings.lookup (String.ofList name) with
    | some v =>
      simp only [Piece.left, Piece.read, h, List.flatMap_map]
      exact List.flatMap_singleton' v.toList
    | none => simp [Piece.left, Piece.read, h]

/-- Without a closing brace a text has no references. -/
theorem Reading.read_of_not_mem (h : Reading cs pieces) (hc : '\x7d' ∉ cs) :
    pieces.flatMap (Piece.read bindings) = cs := by
  induction h with
  | nil => rfl
  | kept _ _ ih => rw [List.flatMap_cons, ih fun hmem => hc (List.mem_cons_of_mem _ hmem)]; rfl
  | reference _ _ _ _ => simp at hc

/-- No reference begins with a character that was kept, whatever stands after it now. -/
theorem Reading.begins (hh : ∀ e ∈ bindings, Harmless e.2) (h : Reading rest pieces) {c : Char}
    (hb : Begins (c :: pieces.flatMap (Piece.read bindings))) : Begins (c :: rest) := by
  obtain ⟨d, tail, htext, hd, hmem⟩ := hb
  obtain ⟨rfl, hopen⟩ := List.cons.inj htext
  cases h with
  | nil => cases hopen
  | @reference name after pieces hn hc h =>
    -- a reference leaves no brace in front, set or not
    exfalso
    rw [List.flatMap_cons, Piece.read] at hopen
    split at hopen
    · rename_i v hv
      obtain ⟨hne, -, hfree⟩ := hh _ (mem_of_lookup hv)
      obtain ⟨c, cs, hcs⟩ := List.exists_cons_of_ne_nil (mt String.toList_eq_nil_iff.mp hne)
      rw [hcs] at hopen hfree
      exact hfree (by simp [(List.cons.inj hopen).1])
    · simp [Piece.written] at hopen
  | @kept c rest pieces _ h =>
    obtain ⟨rfl, hname⟩ := List.cons.inj hopen
    cases h with
    | nil => cases hname
    | reference _ _ _ => exact ⟨_, _, rfl, by decide, by simp⟩
    | @kept c rest pieces _ h =>
      obtain ⟨rfl, htail⟩ := List.cons.inj hname
      have htail : pieces.flatMap (Piece.read bindings) = tail := htail
      refine ⟨c, rest, rfl, hd, Decidable.by_contra fun hfree => ?_⟩
      rw [h.read_of_not_mem hfree] at htail
      exact hfree (htail ▸ hmem)

/-- In front of a text, characters without a dollar sign stand for themselves. -/
theorem Reading.front {value : List Char} (hv : '$' ∉ value) (h : Reading cs pieces) :
    Reading (value ++ cs) (value.map .kept ++ pieces) := by
  induction value with
  | nil => exact h
  | cons c value ih =>
    refine .kept ?_ (ih fun hmem => hv (List.mem_cons_of_mem _ hmem))
    intro hb
    obtain ⟨_, _, htext, -, -⟩ := hb
    exact hv (by rw [(List.cons.inj htext).1]; simp)

/-- Where values are harmless, the text after a substitution is read as what the
pieces of the text before it leave. -/
theorem Reading.left (hh : ∀ e ∈ bindings, Harmless e.2) (h : Reading cs pieces) :
    Reading (pieces.flatMap (Piece.read bindings)) (pieces.flatMap (Piece.left bindings)) := by
  induction h with
  | nil => exact .nil
  | kept hb h ih => exact .kept (mt (h.begins hh) hb) ih
  | @reference name after pieces hn hc h ih =>
    rw [List.flatMap_cons, List.flatMap_cons, Piece.read, Piece.left]
    cases hv : bindings.lookup (String.ofList name) with
    | some v => exact .front (hh _ (mem_of_lookup hv)).2.1 ih
    | none => simpa [Piece.written] using Reading.reference hn hc ih

theorem substituteText_twice (hh : ∀ e ∈ bindings, Harmless e.2) (cs : List Char) :
    substituteText bindings (substituteText bindings cs) =
      substituteText bindings cs := by
  obtain ⟨pieces, h, hread⟩ := exists_reading bindings cs
  rw [hread, (h.left hh).replaced, List.flatMap_assoc]
  exact congrArg (List.flatMap · pieces) (funext Piece.read_left)

/-! ## Variables that are not set -/

/-- No variable that a text refers to is set. -/
def Unset (bindings : List (String × String)) (text : List Char) : Prop :=
  ∀ pieces, Reading text pieces → ∀ name, .reference name ∈ pieces → bindings.lookup (String.ofList name) = none

theorem substituteText_unset (h : Unset bindings cs) : substituteText bindings cs = cs := by
  obtain ⟨pieces, hpieces, hread⟩ := exists_reading bindings cs
  have hsame : ∀ p ∈ pieces, p.read bindings = p.written := by
    intro p hp
    cases p with
    | kept c => rfl
    | reference name => rw [Piece.read, h pieces hpieces name hp]
  rw [hread, List.flatMap_def, List.map_congr_left hsame, ← List.flatMap_def, hpieces.written]

/-! ## Values -/

/-- A text that a value has as far as lists and mappings reach. -/
inductive HasText : Value → String → Prop where
  | here (text : String) : HasText (.str text) text
  | item {items : List Value} {v : Value} {text : String} (hv : v ∈ items) (h : HasText v text) :
      HasText (.list items) text
  | entry {entries : Entries} {e : Value × Value} {text : String} (he : e ∈ entries) (h : HasText e.2 text) :
      HasText (.mapping entries) text

theorem substituteItems_eq (items : List Value) :
    substituteItems bindings items = items.map (substitute bindings) := by
  induction items with
  | nil => rfl
  | cons v rest ih => rw [substituteItems, ih, List.map_cons]

theorem substituteEntries_eq (entries : Entries) :
    substituteEntries bindings entries = entries.map fun e => (e.1, substitute bindings e.2) := by
  induction entries with
  | nil => rfl
  | cons e rest ih => rw [substituteEntries, ih, List.map_cons]

theorem substitute_str (bindings : List (String × String)) (text : String) : substitute bindings (.str text) =
    .str (String.ofList (substituteText bindings text.toList)) := by
  rw [substitute]

theorem substitute_list (bindings : List (String × String)) (items : List Value) :
    substitute bindings (.list items) = .list (items.map (substitute bindings)) := by
  rw [substitute, substituteItems_eq]

theorem substitute_mapping (bindings : List (String × String)) (entries : Entries) :
    substitute bindings (.mapping entries) = .mapping (entries.map fun e => (e.1, substitute bindings e.2)) := by
  rw [substitute, substituteEntries_eq]

/-- A value that refers to no variable that is set stays as it is. -/
theorem substitute_unset {v : Value} (h : ∀ text, HasText v text → Unset bindings text.toList) :
    substitute bindings v = v := by
  induction v using Value.partsInduction with
  | parts v ih =>
    cases v with
    | str text => rw [substitute_str, substituteText_unset (h text (.here text)), String.ofList_toList]
    | list items =>
      have hitems : ∀ v ∈ items, substitute bindings v = v := fun v hv =>
        ih v hv fun text ht => h text (.item hv ht)
      rw [substitute_list, List.map_congr_left hitems, List.map_id']
    | mapping entries =>
      have hentries : ∀ e ∈ entries, (e.1, substitute bindings e.2) = e := fun e he =>
        Prod.ext rfl (ih e.2 (List.mem_map_of_mem he) fun text ht => h text (.entry he ht))
      rw [substitute_mapping, List.map_congr_left hentries, List.map_id']
    | _ => rfl

/-- Where values are harmless, nothing is left to substitute. -/
theorem substitute_twice (hh : ∀ e ∈ bindings, Harmless e.2) (v : Value) :
    substitute bindings (substitute bindings v) = substitute bindings v := by
  induction v using Value.partsInduction with
  | parts v ih =>
    cases v with
    | str text => rw [substitute_str, substitute_str, String.toList_ofList, substituteText_twice hh]
    | list items =>
      rw [substitute_list, substitute_list, List.map_map]
      exact congrArg Value.list (List.map_congr_left ih)
    | mapping entries =>
      rw [substitute_mapping, substitute_mapping, List.map_map]
      refine congrArg Value.mapping (List.map_congr_left fun e he => ?_)
      exact Prod.ext rfl (ih e.2 (List.mem_map_of_mem he))
    | _ => rfl

/-- What substitution does. -/
structure Substitutes (bindings : List (String × String)) : Prop where
  /-- A text has one reading, which loses nothing. Its pieces are replaced by what they stand for. -/
  text : ∀ text : String, ∃ pieces, Reading text.toList pieces ∧
    (∀ others, Reading text.toList others → others = pieces) ∧ pieces.flatMap Piece.written = text.toList ∧
    substitute bindings (.str text) = .str (String.ofList (pieces.flatMap (Piece.read bindings)))
  list : ∀ items, substitute bindings (.list items) = .list (items.map (substitute bindings))
  /-- The keys of a mapping and their order stay. -/
  mapping : ∀ entries, substitute bindings (.mapping entries) =
    .mapping (entries.map fun e => (e.1, substitute bindings e.2))
  other : ∀ v, (∀ text, v ≠ .str text) → (∀ items, v ≠ .list items) → (∀ entries, v ≠ .mapping entries) →
    (∀ name, v ≠ .shared name) → substitute bindings v = v
  /-- A value stays as it is when no variable that it refers to is set. -/
  unset : ∀ v, (∀ text, HasText v text → Unset bindings text.toList) → substitute bindings v = v
  /-- Values that are not empty and have neither a dollar sign nor an opening brace
  leave nothing to substitute. -/
  twice : (∀ e ∈ bindings, Harmless e.2) → ∀ v, substitute bindings (substitute bindings v) = substitute bindings v

theorem substitute_reading (bindings : List (String × String)) : Substitutes bindings where
  text text := by
    obtain ⟨pieces, h, hread⟩ := exists_reading bindings text.toList
    exact ⟨pieces, h, fun others h' => h'.unique h, h.written, by rw [substitute_str, hread]⟩
  list := substitute_list bindings
  mapping := substitute_mapping bindings
  other v ht hl hm _ := by
    cases v with
    | str text => exact absurd rfl (ht text)
    | list items => exact absurd rfl (hl items)
    | mapping entries => exact absurd rfl (hm entries)
    | _ => rfl
  unset _ := substitute_unset
  twice := substitute_twice

example : substituteText [("A", "x"), ("B", "")] "a$\x7bA\x7d $\x7b\x7d $$\x7bB\x7d\x7bA\x7d $\x7bC$\x7bA\x7d".toList =
    "ax $\x7b\x7d $\x7bA\x7d $\x7bC$\x7bA\x7d".toList := by cbv

end Cascade.Settings
