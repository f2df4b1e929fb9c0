import Cascade.Proofs.Package

/-! # Full names of packages

A full name has its kind in front, or a scope with the kind behind it. Making a name
full leaves full names as they are. The line break that may end a name stays where it
is. -/
namespace Cascade.Package

/-! ## Line breaks at the end -/

/-- What may follow a text in its line. -/
def lineEnds : List String := ["", "\n"]

theorem mem_lineEnds_empty : "" ∈ lineEnds := by simp [lineEnds]

theorem eq_of_mem_lineEnds {ending : String} (h : ending ∈ lineEnds) : ending = "" ∨ ending = "\n" := by
  simpa [lineEnds] using h

theorem withoutFinalBreak_break (s : String) : withoutFinalBreak (s ++ "\n") = s := by
  have hlist : (s ++ "\n").toList.reverse = '\n' :: s.toList.reverse := by simp
  rw [withoutFinalBreak, hlist]
  simp

theorem withoutFinalBreak_of_not_mem {s : String} (h : '\n' ∉ s.toList) : withoutFinalBreak s = s := by
  unfold withoutFinalBreak
  split
  · rename_i rest hlist
    refine absurd ?_ h
    rw [← List.mem_reverse, hlist]
    exact List.mem_cons_self
  · rfl

theorem withoutFinalBreak_append {s ending : String} (h : '\n' ∉ s.toList) (he : ending ∈ lineEnds) :
    withoutFinalBreak (s ++ ending) = s := by
  simp only [lineEnds, List.mem_cons, List.not_mem_nil, or_false] at he
  rcases he with rfl | rfl
  · rw [String.append_empty, withoutFinalBreak_of_not_mem h]
  · exact withoutFinalBreak_break s

theorem exists_lineEnd (s : String) : ∃ ending ∈ lineEnds, s = withoutFinalBreak s ++ ending := by
  unfold withoutFinalBreak
  split
  · rename_i rest hlist
    refine ⟨"\n", by simp [lineEnds], ?_⟩
    rw [← String.toList_inj, ← List.reverse_inj, hlist]
    simp
  · exact ⟨"", by simp [lineEnds], by simp⟩

/-! ## Kinds and scopes -/

/-- The kinds of packages. -/
def kinds : List String := [pluginKind, configKind]

/-- What tells the name of a kind from the rest of a package's name. -/
structure IsKind (kind : String) : Prop where
  letter : ∃ rest, kind.toList = 'e' :: rest
  slash : '/' ∉ kind.toList
  backslash : '\\' ∉ kind.toList
  line : '\n' ∉ kind.toList

theorem isKind_of_mem {kind : String} (h : kind ∈ kinds) : IsKind kind := by
  simp only [kinds, List.mem_cons, List.not_mem_nil, or_false] at h
  rcases h with rfl | rfl
  · exact ⟨pluginKind_eq, by decide, by decide, by decide⟩
  · exact ⟨configKind_eq, by decide, by decide, by decide⟩

/-- A scope has a sign in front, and something behind that. -/
structure IsScope (scope : String) : Prop where
  sign : Text.startsWith scope "@" = true
  slash : '/' ∉ scope.toList

variable {kind scope own : String}

theorem IsScope.sign_append (hs : IsScope scope) (rest : String) : Text.startsWith (scope ++ rest) "@" = true :=
  Text.startsWith_append_of hs.sign rest

theorem drop_kind (kind rest : String) : Text.drop (kind.length + 1) (kind ++ "-" ++ rest) = rest := by
  have hlength : (kind ++ "-").length = kind.length + 1 := by
    rw [String.length_append]
    rfl
  rw [← hlength, Text.drop_append]

theorem IsKind.not_sign (hk : IsKind kind) (rest : String) : Text.startsWith (kind ++ rest) "@" = false := by
  obtain ⟨letters, hletters⟩ := hk.letter
  rw [Bool.eq_false_iff, Ne, Text.startsWith_iff_head? rfl, String.toList_append, hletters, List.cons_append,
    List.head?_cons]
  decide

/-! ## Full names -/

theorem withoutFinalBreak_append_right (front : String) {back : String} (h : back ≠ "") :
    withoutFinalBreak (front ++ back) = front ++ withoutFinalBreak back := by
  obtain ⟨ending, hending, hsplit⟩ := exists_lineEnd back
  simp only [lineEnds, List.mem_cons, List.not_mem_nil, or_false] at hending
  rcases hending with rfl | rfl
  · have hchars : back.toList ≠ [] := fun hnil => h (String.toList_inj.mp hnil)
    obtain ⟨before, last, hlast⟩ := (List.eq_nil_or_concat back.toList).resolve_left hchars
    have hbreak : last ≠ '\n' := by
      rintro rfl
      have hback : back = String.ofList before ++ "\n" := by
        rw [← String.toList_inj, hlast]
        simp
      rw [hback, withoutFinalBreak_break] at hsplit
      simpa using congrArg String.length hsplit
    have hsame : ∀ s : String, s.toList.getLast? = some last → withoutFinalBreak s = s := by
      intro s hs
      unfold withoutFinalBreak
      split
      · rename_i rest hlist
        rw [← List.head?_reverse, hlist] at hs
        exact absurd (Option.some.inj hs).symm hbreak
      · rfl
    rw [hsame back (by simp [hlast]), hsame (front ++ back) (by simp [hlast])]
  · conv => lhs; rw [hsplit, ← String.append_assoc]
    exact withoutFinalBreak_break _

/-- The own part of a scoped package that names the kind alone, or nothing. -/
theorem normalizeScoped_kind (hk : IsKind kind) (hs : scope ≠ "@") (hown : own = "" ∨ own = kind) {ending : String}
    (he : ending ∈ lineEnds) :
    normalizeScoped kind scope (own ++ ending) = scope ++ "/" ++ (kind ++ ending) := by
  have hline : '\n' ∉ own.toList := by
    rcases hown with rfl | rfl
    · simp
    · exact hk.line
  have hwithout := withoutFinalBreak_append hline he
  have hlength : (if own ++ ending == kind then (own ++ ending).length else own.length) = own.length := by
    split
    · rename_i heq
      have hall : own ++ ending = kind := beq_iff_eq.mp heq
      rw [hall, withoutFinalBreak_of_not_mem hk.line] at hwithout
      rw [hall, hwithout]
    · rfl
  unfold normalizeScoped
  dsimp only
  rw [hwithout, hlength, Text.drop_append, if_pos (by rcases hown with h | h <;> simp [hs, h])]
  simp only [String.append_assoc]

/-- Any other own part gets the kind in front, unless it has it or cannot have it. -/
theorem normalizeScoped_other (hk : IsKind kind) (hkind : withoutFinalBreak own ≠ kind)
    (hempty : withoutFinalBreak own ≠ "") :
    normalizeScoped kind scope own =
      if hasKind kind (scopeOf own) || scope == "@" || !isOneLine own then scope ++ "/" ++ own
      else scope ++ "/" ++ (kind ++ "-" ++ own) := by
  have hne : own ≠ kind := by
    rintro rfl
    exact hkind (withoutFinalBreak_of_not_mem hk.line)
  have hfirst : (Text.fields '/' own).headD "" = scopeOf own := by
    rw [List.headD_eq_head?_getD, Text.head?_fields]
    rfl
  unfold normalizeScoped
  dsimp only
  rw [if_neg (by simp [hkind, hempty, hne]), hfirst]
  simp only [String.append_assoc]

theorem normalizeScoped_bare (kind own : String) : normalizeScoped kind "@" own = "@" ++ "/" ++ own := by
  simp [normalizeScoped]

/-- The own part with the kind in front stays as it is. -/
theorem normalizeScoped_named (hk : IsKind kind) (hown : withoutFinalBreak own ≠ "") :
    normalizeScoped kind scope (kind ++ "-" ++ own) = scope ++ "/" ++ (kind ++ "-" ++ own) := by
  have hne : own ≠ "" := by
    rintro rfl
    exact hown rfl
  have hdash : '/' ∉ (kind ++ "-").toList := by
    rw [String.toList_append, List.mem_append, not_or]
    exact ⟨hk.slash, by decide⟩
  have hwithout : withoutFinalBreak (kind ++ "-" ++ own) = kind ++ "-" ++ withoutFinalBreak own :=
    withoutFinalBreak_append_right _ hne
  have hlength : (kind ++ "-" ++ withoutFinalBreak own).length = kind.length + 1 + (withoutFinalBreak own).length := by
    simp only [String.length_append]
    rfl
  have hkind : withoutFinalBreak (kind ++ "-" ++ own) ≠ kind := by
    intro heq
    rw [hwithout] at heq
    rw [heq] at hlength
    omega
  have hempty : withoutFinalBreak (kind ++ "-" ++ own) ≠ "" := by
    intro heq
    rw [hwithout] at heq
    rw [heq] at hlength
    simp at hlength
    omega
  rw [normalizeScoped_other hk hkind hempty, if_pos]
  rw [scopeOf_append hdash, hasKind, Text.startsWith_append]
  simp

/-- The full name of a scoped name has an own part that stays as it is, and no characters but
those of the name and of the kind. -/
theorem normalizeScoped_again (hk : IsKind kind) (scope own : String) : ∃ own',
    normalizeScoped kind scope own = scope ++ "/" ++ own' ∧
    normalizeScoped kind scope own' = scope ++ "/" ++ own' ∧
    ('\\' ∉ own.toList → '\\' ∉ own'.toList) := by
  by_cases hs : scope = "@"
  · subst hs
    exact ⟨own, normalizeScoped_bare kind own, normalizeScoped_bare kind own, id⟩
  by_cases hline : withoutFinalBreak own = "" ∨ withoutFinalBreak own = kind
  · obtain ⟨ending, hending, hsplit⟩ := exists_lineEnd own
    refine ⟨kind ++ ending, ?_, normalizeScoped_kind hk hs (.inr rfl) hending, fun hb => ?_⟩
    · conv => lhs; rw [hsplit]
      exact normalizeScoped_kind hk hs hline hending
    · rw [String.toList_append, List.mem_append, not_or]
      refine ⟨hk.backslash, fun hmem => hb ?_⟩
      rw [hsplit, String.toList_append]
      exact List.mem_append_right _ hmem
  · obtain ⟨hempty, hkind⟩ := not_or.mp hline
    have hother : normalizeScoped kind scope own = _ := normalizeScoped_other hk hkind hempty
    split at hother
    · exact ⟨own, hother, hother, id⟩
    · refine ⟨kind ++ "-" ++ own, hother, normalizeScoped_named hk hempty, fun hb => ?_⟩
      simp only [String.toList_append, List.mem_append, not_or]
      exact ⟨⟨hk.backslash, by decide⟩, hb⟩

/-- The full names of packages: with the kind in front, or as the own part behind a scope. -/
inductive IsFull (kind : String) : String → Prop
  | unscoped (name : String) : IsFull kind (kind ++ "-" ++ name)
  | inScope {scope own : String} : IsScope scope → normalizeScoped kind scope own = scope ++ "/" ++ own →
      IsFull kind (scope ++ "/" ++ own)

theorem normalize_own (hs : IsScope scope) (hb : '\\' ∉ (scope ++ "/" ++ own).toList) :
    normalize kind (scope ++ "/" ++ own) = .ok (normalizeScoped kind scope own) := by
  have hsign : Text.startsWith (scope ++ "/" ++ own) "@" = true := by
    rw [String.append_assoc]
    exact hs.sign_append _
  unfold normalize
  dsimp only
  rw [Text.swap_of_not_mem hb, if_pos hsign, Text.cutFirst_append hs.slash]

theorem normalize_isFull (hk : IsKind kind) {name package : String} (h : normalize kind name = .ok package) :
    IsFull kind package ∧ '\\' ∉ package.toList := by
  have hb : '\\' ∉ (Text.swap '\\' '/' name).toList := Text.not_mem_swap (by decide) name
  unfold normalize at h
  dsimp only at h
  generalize Text.swap '\\' '/' name = n at h hb
  by_cases hsign : Text.startsWith n "@" = true
  · rw [if_pos hsign] at h
    by_cases hslash : '/' ∈ n.toList
    · obtain ⟨scope, own, hscope, rfl⟩ := Text.exists_cut hslash
      rw [Text.cutFirst_append hscope] at h
      cases h
      obtain ⟨own', heq, hagain, hback⟩ := normalizeScoped_again hk scope own
      rw [heq]
      simp only [String.toList_append, List.mem_append, not_or] at hb ⊢
      exact ⟨.inScope ⟨scopeOf_slash hscope own ▸ startsWith_scopeOf hsign, hscope⟩ hagain, hb.1, hback hb.2⟩
    · rw [Text.cutFirst_of_not_mem hslash] at h
      dsimp only at h
      split at h
      · cases h
      · rename_i hne
        cases h
        have hown : normalizeScoped kind n (kind ++ "") = n ++ "/" ++ (kind ++ "") :=
          normalizeScoped_kind hk (by simpa using hne) (.inr rfl) mem_lineEnds_empty
        rw [String.append_empty] at hown
        simp only [String.toList_append, List.mem_append, not_or]
        exact ⟨.inScope ⟨hsign, hslash⟩ hown, ⟨hb, by decide⟩, hk.backslash⟩
  · rw [if_neg hsign] at h
    split at h
    · rename_i hkind
      obtain ⟨rest, rfl⟩ := Text.startsWith_iff.mp hkind
      cases h
      exact ⟨IsFull.unscoped rest, hb⟩
    · cases h
      refine ⟨.unscoped n, ?_⟩
      simp only [String.toList_append, List.mem_append, not_or]
      exact ⟨⟨hk.backslash, by decide⟩, hb⟩

theorem IsFull.normalize (hk : IsKind kind) {package : String} (h : IsFull kind package) (hb : '\\' ∉ package.toList) :
    normalize kind package = .ok package := by
  cases h with
  | unscoped name =>
    unfold Package.normalize
    dsimp only
    rw [Text.swap_of_not_mem hb, if_neg, if_pos (Text.startsWith_append _ _)]
    rw [String.append_assoc, hk.not_sign]
    decide
  | inScope hs hown => rw [normalize_own hs hb, hown]

end Cascade.Package
