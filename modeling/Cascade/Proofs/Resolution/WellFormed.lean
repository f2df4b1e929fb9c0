import Cascade.Proofs.Package
import Cascade.Proofs.Resolution.Patterns
import Cascade.Proofs.Text

/-! # Well-formed nodes

The checks of a resolution are spread over configurations, overrides and what these
extend. Together they leave only nodes whose members have the types that belong to
them, whose patterns stay below their directory, and which ignore no files inside of
an override. -/
namespace Cascade

/-! ## Patterns -/

def IsSeparator (c : Char) : Prop := c = '/' ∨ c = '\\'

/-- A pattern without the marks of negation in front of it. -/
def unmarked (pattern : String) : List Char := pattern.toList.dropWhile (· == '!')

/-- A pattern does not start at the root, and none of its parts is `..`. -/
structure Relative (pattern : String) : Prop where
  start : ∀ c ∈ (unmarked pattern).head?, ¬ IsSeparator c
  parts : ∀ before after, unmarked pattern = before ++ ['.', '.'] ++ after →
    (∃ c ∈ before.getLast?, ¬ IsSeparator c) ∨ ∃ c ∈ after.head?, ¬ IsSeparator c

/-- A separator is what the second kind of separators is read as. -/
theorem isSeparator_iff (c : Char) : IsSeparator c ↔ (if c == '\\' then '/' else c) = '/' := by
  by_cases hc : c = '\\'
  · simp [IsSeparator, hc]
  · simp [IsSeparator, hc]

namespace Criteria

variable {pattern : String}

/-- What can separate the parts of a pattern. -/
def separators : List Char := ['/', '\\']

/-- The parts of a text between the separators in use. -/
def partsBy (used : List Char) (text : List Char) : List (List Char) := text.splitOnP used.contains

/-- A pattern that is refused: without the marks of negation it starts with a separator or has `..` among
its parts. -/
def Escapes (pattern : String) : Prop :=
  (∃ c ∈ (unmarked pattern).head?, IsSeparator c) ∨ ['.', '.'] ∈ partsBy separators (unmarked pattern)

theorem contains_separators (c : Char) : separators.contains c = true ↔ IsSeparator c := by
  simp [separators, IsSeparator]

theorem contains_separators_up : ∀ c ∈ ['.', '.'], separators.contains c = false := by
  simp [separators]

/-- The second separator may be read as the first one before a text is split. -/
theorem mem_segments (text : List Char) :
    ".." ∈ segments (String.ofList text) ↔ ['.', '.'] ∈ partsBy separators text := by
  let read (c : Char) : Char := if c == '\\' then '/' else c
  have hused : (fun c => read c == '/') = separators.contains := by
    funext c
    rw [Bool.eq_iff_iff, contains_separators, isSeparator_iff, beq_iff_eq]
  have hdot : ∀ c, read c = '.' ↔ c = '.' := by
    intro c
    by_cases hc : c = '\\'
    · subst hc
      decide
    · simp [read, hc]
  have hpart : ∀ part : List Char, part.map read = ['.', '.'] ↔ part = ['.', '.'] := by
    intro part
    simp [List.map_eq_cons_iff, hdot]
  have hsplit : (text.map read).splitOn '/' = (partsBy separators text).map (List.map read) := by
    rw [List.splitOn, Text.splitOnP_map, hused, partsBy]
  have hsegments : segments (String.ofList text) = (((partsBy separators text).map (List.map read)).map String.ofList) := by
    rw [segments, Text.fields, Text.swap, String.toList_ofList, String.toList_ofList, ← hsplit]
  rw [hsegments, List.map_map]
  constructor
  · intro h
    obtain ⟨part, hmem, heq⟩ := List.mem_map.mp h
    have heq : part.map read = ['.', '.'] := String.ofList_injective heq
    exact (hpart part).mp heq ▸ hmem
  · exact fun h => List.mem_map.mpr ⟨_, h, rfl⟩

theorem isConfined_iff : isConfined pattern = true ↔ ¬ Escapes pattern := by
  have hbody : Text.dropLeading '!' pattern = String.ofList (unmarked pattern) := rfl
  have hslash := Text.startsWith_iff_head? (show "/".toList = ['/'] from rfl) (String.ofList (unmarked pattern))
  have hback := Text.startsWith_iff_head? (show "\\".toList = ['\\'] from rfl) (String.ofList (unmarked pattern))
  have hstart : (∃ c ∈ (unmarked pattern).head?, IsSeparator c) ↔
      (unmarked pattern).head? = some '/' ∨ (unmarked pattern).head? = some '\\' := by
    simp [IsSeparator, and_or_left, exists_or]
  rw [isConfined, hbody, Escapes, hstart, ← mem_segments]
  simp only [Bool.and_eq_true, Bool.not_eq_true', not_or, ← Bool.not_eq_true, hslash, hback, String.toList_ofList,
    List.contains_iff_mem]

instance (pattern : String) : Decidable (Escapes pattern) :=
  decidable_of_iff (¬ isConfined pattern = true) (by rw [isConfined_iff, not_not])

end Criteria

theorem relative_of_isConfined {pattern : String} (h : Criteria.isConfined pattern = true) : Relative pattern := by
  rw [Criteria.isConfined_iff, Criteria.Escapes, not_or] at h
  obtain ⟨hstart, hparts⟩ := h
  refine ⟨fun c hc hsep => hstart ⟨c, hc, hsep⟩, fun before after heq => ?_⟩
  by_contra hbounded
  simp only [not_or, not_exists, not_and, not_not] at hbounded
  obtain ⟨hbefore, hafter⟩ := hbounded
  exact hparts (Text.mem_splitOnP.mpr ⟨before, after, heq, Criteria.contains_separators_up,
    fun c hc => (Criteria.contains_separators c).mpr (hbefore c hc),
    fun c hc => (Criteria.contains_separators c).mpr (hafter c hc)⟩)

/-- The patterns of both lists of a pair. -/
def PatternPair.patterns (pair : PatternPair) : List String := pair.includes.getD [] ++ pair.excludes.getD []

structure PatternPair.WellFormed (pair : PatternPair) : Prop where
  listed : pair.patterns ≠ []
  relative : ∀ pattern ∈ pair.patterns, Relative pattern

structure Criteria.WellFormed (c : Criteria) : Prop where
  paired : c.pairs ≠ []
  pairs : ∀ pair ∈ c.pairs, pair.WellFormed

/-- A list of patterns that is there is not empty. -/
theorem Criteria.patternList_ne_nil {store : Shared} {key source : String} {v : Value} {patterns : List String}
    (h : patternList store key source v = .ok (some patterns)) : patterns ≠ [] := by
  rintro rfl
  unfold patternList at h
  split at h
  · cases h
  · cases h
  · split at h
    · cases h
    · rename_i hne _
      cases h
      exact hne rfl
    · cases h
  · cases h

theorem Criteria.make_wellFormed {store : Shared} {files excluded : Value} {base : Option String}
    {source : String} {c : Criteria} (h : make store files excluded base source = .ok (some c)) :
    c.WellFormed := by
  obtain ⟨includes, excludes, hi, he, hall, hsome⟩ := make_eq_ok.mp h
  split at hsome
  · cases hsome
  · rename_i hnone
    cases hsome
    refine ⟨by simp, fun pair hpair => ?_⟩
    cases List.mem_singleton.mp hpair
    refine ⟨fun hempty => hnone ?_, fun pattern hpattern => ?_⟩
    · obtain ⟨hincludes, hexcludes⟩ := List.append_eq_nil_iff.mp hempty
      cases includes with
      | some patterns => exact absurd hincludes (patternList_ne_nil hi)
      | none =>
        cases excludes with
        | some patterns => exact absurd hexcludes (patternList_ne_nil he)
        | none => rfl
    · have hconfined := List.find?_eq_none.mp hall pattern hpattern
      exact relative_of_isConfined (by simpa using hconfined)

theorem Criteria.WellFormed.combine {outer : Option Criteria} {inner : Criteria}
    (ho : ∀ c ∈ outer, c.WellFormed) (hi : inner.WellFormed) :
    ∀ c ∈ Criteria.combine outer (some inner), c.WellFormed := by
  cases outer with
  | none => rintro _ ⟨⟩; exact hi
  | some outer =>
    rintro _ ⟨⟩
    have ho := ho outer rfl
    refine ⟨by simp [Criteria.both, ho.paired], fun pair hpair => ?_⟩
    rcases List.mem_append.mp hpair with hpair | hpair
    · exact ho.pairs pair hpair
    · exact hi.pairs pair hpair

/-! ## Nodes -/

open Resolution

/-- The members of a node have the types that belong to them. -/
structure Node.WellFormed (store : Shared) (n : Node) : Prop where
  keys : ∀ e ∈ n.data, ∃ key ∈ nodeKeys, e.1 = .str key
  mappings : ∀ key ∈ ["env", "globals", "parserOptions", "rules", "settings"], ∀ v,
    Entries.field? n.data key = some v → ∃ m, store.view v = .mapping m
  booleans : ∀ key ∈ ["noInlineConfig", "reportUnusedDisableDirectives"], ∀ v,
    Entries.field? n.data key = some v → ∃ b, v = .bool b
  plugins : ∀ plugins ∈ n.plugins, plugins ≠ [] ∧ Filed plugins
  criteria : ∀ c ∈ n.criteria, c.WellFormed
  ignored : ∀ pattern ∈ n.ignorePattern, pattern.patterns ≠ []
  /-- Files are ignored outside of overrides only. -/
  apart : n.criteria = none ∨ n.ignorePattern = none

namespace Resolution

variable {r : Resolver} {w : World} {start here : Extended}

/-- A node takes over the members of its configuration that it knows. -/
theorem field?_nodeData {m : Entries} {key : String} {v : Value}
    (h : Entries.field? (nodeData m) key = some v) : Entries.field? m key = some v := by
  rw [Entries.field?, Entries.get?] at h
  obtain ⟨e, hfind, rfl⟩ := Option.map_eq_some_iff.mp h
  obtain ⟨name, -, hname⟩ := List.mem_filterMap.mp (List.mem_of_find?_eq_some hfind)
  obtain ⟨v, hv, rfl⟩ := Option.map_eq_some_iff.mp hname
  have hsame := List.find?_some hfind
  cases (Value.same_str _ _).mp hsame
  exact hv

theorem ignorePattern?_wellFormed {m : Entries} {ctx : Context} {pattern : IgnorePattern}
    (h : ignorePattern? w.shared m ctx = .ok (some pattern)) :
    pattern.patterns ≠ [] ∧ ctx.criteria = none := by
  obtain ⟨patterns, hp, h⟩ := bind_eq_ok.mp h
  cases patterns with
  | none => cases h
  | some patterns =>
    dsimp only at h
    split at h
    · cases h
    · rename_i hnone
      cases h
      exact ⟨Criteria.patternList_ne_nil hp, by simpa using hnone⟩

theorem Stands.wellFormed {route : Route} (h : Stands r w start route here)
    (hstart : ∀ c ∈ start.2.criteria, c.WellFormed) : ∀ c ∈ here.2.criteria, c.WellFormed := by
  induction h with
  | start => exact hstart
  | next _ hgoes ih =>
    cases hgoes with
    | reference _ _ _ hloads => rw [hloads.criteria]; exact ih
    | override _ _ _ hctx =>
      obtain ⟨m, files, c, -, -, hmake, rfl⟩ := overrideContext_eq_ok.mp hctx
      exact Criteria.WellFormed.combine ih (Criteria.make_wellFormed hmake)

/-- What stands at a place of a resolution has a well-formed node. -/
theorem Place.Below.wellFormed {p : Place} (h : p.Below r w start)
    (hstart : ∀ c ∈ start.2.criteria, c.WellFormed) : p.own.node.WellFormed w.shared := by
  obtain ⟨m, -, hcheck, howns⟩ := h.owns
  obtain ⟨-, hmappings, hbooleans⟩ := checkMembers_eq_ok.mp hcheck
  refine ⟨?_, ?_, ?_, howns.plugins, ?_, ?_, ?_⟩
  · rw [howns.data]
    intro e he
    obtain ⟨key, hkey, hv⟩ := List.mem_filterMap.mp he
    obtain ⟨v, -, rfl⟩ := Option.map_eq_some_iff.mp hv
    exact ⟨key, hkey, rfl⟩
  · rw [howns.data]
    intro key hkey v hv
    have hmapping := hmappings key hkey v (field?_nodeData hv)
    cases hview : w.shared.view v with
    | mapping m => exact ⟨m, rfl⟩
    | _ => rw [hview] at hmapping; cases hmapping
  · rw [howns.data]
    intro key hkey v hv
    have hbool := hbooleans key (List.mem_append_left ["root"] hkey) v (field?_nodeData hv)
    cases v with
    | bool b => exact ⟨b, rfl⟩
    | _ => cases hbool
  · rw [howns.criteria]
    exact h.stands.wellFormed hstart
  · intro pattern hpattern
    have hignored := howns.ignored
    rw [Option.mem_def.mp hpattern] at hignored
    exact (ignorePattern?_wellFormed hignored).1
  · cases hpattern : p.own.node.ignorePattern with
    | none => exact .inr rfl
    | some pattern =>
      have hignored := howns.ignored
      rw [hpattern] at hignored
      exact .inl (howns.criteria.trans (ignorePattern?_wellFormed hignored).2)

end Resolution

end Cascade
