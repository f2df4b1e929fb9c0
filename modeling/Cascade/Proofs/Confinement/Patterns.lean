import Cascade.Proofs.Resolution.WellFormed

/-! # Patterns stay below their base

The check of a pattern is on its text. It is a check of the walk that the pattern means:
from a base directory, part by part, an accepted pattern leads nowhere but to the base
and below it, whichever of the two separators are in use. -/
namespace Cascade.Criteria

variable {store : Shared} {files excluded : Value} {fs es : List String} {pattern : String} {v : Value}

/-! ## The walk -/

/-- The directory that a part leads to from another one. Names come last first. -/
def stepTo (place : List (List Char)) (part : List Char) : List (List Char) :=
  if part = ['.', '.'] then place.drop 1
  else if part = [] ∨ part = ['.'] then place
  else part :: place

/-- The directory after some parts of a text. A text that starts with a separator starts at the root. -/
def walkedTo (used : List Char) (base : List (List Char)) (text : List Char) (steps : Nat) : List (List Char) :=
  ((partsBy used text).take steps).foldl stepTo (if text.head?.any used.contains then [] else base)

/-- The walk along a pattern is not from the root, and at no time above the base. -/
structure StaysBelow (pattern : String) : Prop where
  relative : ∀ c ∈ (unmarked pattern).head?, ¬ IsSeparator c
  below : ∀ used ⊆ separators, ∀ base steps, base <:+ walkedTo used base (unmarked pattern) steps

theorem suffix_stepTo {base place : List (List Char)} (h : base <:+ place) {part : List Char} (hp : part ≠ ['.', '.']) :
    base <:+ stepTo place part := by
  rw [stepTo, if_neg hp]
  split
  · exact h
  · exact h.trans (List.suffix_cons part place)

theorem suffix_foldl {base place : List (List Char)} (h : base <:+ place) {parts : List (List Char)}
    (hp : ∀ part ∈ parts, part ≠ ['.', '.']) : base <:+ parts.foldl stepTo place := by
  induction parts generalizing place with
  | nil => exact h
  | cons part rest ih =>
    obtain ⟨hpart, hrest⟩ := List.forall_mem_cons.mp hp
    exact ih (suffix_stepTo h hpart) hrest

/-- A pattern that is not refused stays below its base. -/
theorem staysBelow_of_not_escapes (h : ¬ Escapes pattern) : StaysBelow pattern := by
  rw [Escapes, not_or] at h
  obtain ⟨hstart, hup⟩ := h
  have hrelative : ∀ c ∈ (unmarked pattern).head?, ¬ IsSeparator c := fun c hc hsep => hstart ⟨c, hc, hsep⟩
  refine ⟨hrelative, fun used hused base steps => ?_⟩
  have hsep : ∀ c, used.contains c = true → separators.contains c = true :=
    fun c hc => List.contains_iff_mem.mpr (hused (List.contains_iff_mem.mp hc))
  have hbase : ¬ (unmarked pattern).head?.any used.contains = true := by
    intro hany
    obtain ⟨c, hc, hin⟩ := (Option.any_eq_true _ _).mp hany
    exact hrelative c hc ((contains_separators c).mp (hsep c hin))
  rw [walkedTo, if_neg hbase]
  refine suffix_foldl (List.suffix_refl base) fun part hpart heq => hup ?_
  -- a part `..` stays one when more separators are in use
  subst heq
  exact Text.mem_splitOnP_of_imp (List.mem_of_mem_take hpart) contains_separators_up hsep

/-! ## What is made of two values -/

/-- The patterns that a value gives: null gives none, and a text is one pattern, even an empty text. -/
inductive Gives (store : Shared) (v : Value) : List String → Prop
  | null : store.view v = .null → Gives store v []
  | one {pattern : String} : store.view v = .str pattern → Gives store v [pattern]
  | many {patterns : List String} : store.view v = .list (patterns.map .str) → Gives store v patterns

/-- Null or the empty list. -/
def IsAbsent (store : Shared) (v : Value) : Prop := store.view v = .null ∨ store.view v = .list []

/-- A list of patterns, which is not there when it is empty. -/
def optional (patterns : List String) : Option (List String) := if patterns = [] then none else some patterns

theorem getD_optional (patterns : List String) : (optional patterns).getD [] = patterns := by
  unfold optional
  split
  · rename_i h
    exact h.symm
  · rfl

theorem isNone_optional (patterns : List String) : (optional patterns).isNone = true ↔ patterns = [] := by
  unfold optional
  split <;> simp [*]

theorem Gives.patternList (h : Gives store v fs) (key source : String) :
    Criteria.patternList store key source v = .ok (optional fs) := by
  unfold Criteria.patternList
  cases h with
  | null hv => rw [hv]; rfl
  | one hv => rw [hv]; rfl
  | many hv =>
    simp only [hv, Value.strings?_map_str]
    cases fs <;> rfl

theorem Gives.eq_nil_iff (h : Gives store v fs) : fs = [] ↔ IsAbsent store v := by
  cases h with
  | null hv => simp [IsAbsent, hv]
  | one hv => simp [IsAbsent, hv]
  | many hv => simp [IsAbsent, hv]

theorem find?_refused {patterns : List String} : (patterns.find? fun p => !isConfined p) = some pattern ↔
    ∃ before after, patterns = before ++ pattern :: after ∧ Escapes pattern ∧ ∀ p ∈ before, ¬ Escapes p := by
  have hnot : ∀ p, (!isConfined p) = true ↔ Escapes p := by
    intro p
    rw [Bool.not_eq_true', ← Bool.not_eq_true, isConfined_iff, not_not]
  rw [List.find?_eq_some_iff_append]
  simp only [hnot, Bool.not_not, isConfined_iff]
  constructor
  · rintro ⟨hescapes, before, after, heq, hbefore⟩
    exact ⟨before, after, heq, hescapes, hbefore⟩
  · rintro ⟨before, after, heq, hescapes, hbefore⟩
    exact ⟨hescapes, before, after, heq, hbefore⟩

/-- The first pattern that is refused decides. -/
theorem make_of_gives (hf : Gives store files fs) (he : Gives store excluded es) (base : Option String) (source : String) :
    make store files excluded base source = match (fs ++ es).find? fun p => !isConfined p with
      | some pattern => .error (.invalidPattern pattern source)
      | none => .ok (if fs = [] ∧ es = [] then none else some ⟨[⟨optional fs, optional es⟩], base⟩) := by
  unfold make
  rw [hf.patternList, he.patternList]
  simp only [ok_bind, getD_optional]
  cases (fs ++ es).find? fun p => !isConfined p with
  | some pattern => rfl
  | none =>
    simp only [Bool.and_eq_true, isNone_optional]
    split <;> rfl

/-- What comes of the criteria of two values that give patterns. -/
structure Outcome (store : Shared) (files excluded : Value) (fs es : List String) (base : Option String) (source : String)
    (result : Except Problem (Option Criteria)) : Prop where
  accepted : (∃ c, result = .ok c) ↔ ∀ pattern ∈ fs ++ es, ¬ Escapes pattern
  /-- The first pattern that is refused is the one that is reported. -/
  refused : ∀ problem, result = .error problem ↔ ∃ before pattern after, fs ++ es = before ++ pattern :: after ∧
    Escapes pattern ∧ (∀ p ∈ before, ¬ Escapes p) ∧ problem = .invalidPattern pattern source
  below : (∃ c, result = .ok c) → ∀ pattern ∈ fs ++ es, StaysBelow pattern
  absent : result = .ok none ↔ IsAbsent store files ∧ IsAbsent store excluded
  kept : ∀ c, result = .ok (some c) → c = ⟨[⟨optional fs, optional es⟩], base⟩

end Cascade.Criteria
