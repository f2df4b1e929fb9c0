import Cascade.Proofs.FullName

/-! # Shorthands of packages

A shorthand leaves out the kind of a package. The shorthands that a package is named by
come back from its full name. But not every package can be told from its shorthand: it
may have lost a line break, or the kind may stay in another one. -/
namespace Cascade.Package

variable {kind scope own : String}

/-- The own part of a scoped package: its kind, and a name if it has one. -/
def ownPart (kind name : String) : String := if name = "" then kind else kind ++ "-" ++ name

theorem ownPart_empty (kind : String) : ownPart kind "" = kind := if_pos rfl

theorem ownPart_name {name : String} (h : name ≠ "") : ownPart kind name = kind ++ "-" ++ name := if_neg h

theorem IsKind.ownPart_line (hk : IsKind kind) {name : String} (h : '\n' ∉ name.toList) : '\n' ∉ (ownPart kind name).toList := by
  unfold ownPart
  split
  · exact hk.line
  · simp only [String.toList_append, List.mem_append, not_or]
    exact ⟨⟨hk.line, by decide⟩, h⟩

/-- The name that is left of the own part of a scoped package without its kind. -/
inductive Leaves (kind : String) : String → String → Prop
  | intro {name ending : String} : '\n' ∉ name.toList → ending ∈ lineEnds → Leaves kind (ownPart kind name ++ ending) name

theorem leaves_kind (kind : String) {ending : String} (he : ending ∈ lineEnds) : Leaves kind (kind ++ ending) "" := by
  have hleaves : Leaves kind (ownPart kind "" ++ ending) "" := .intro (by simp) he
  rwa [ownPart_empty] at hleaves

theorem leaves_name (kind : String) {name ending : String} (hname : name ≠ "") (hline : '\n' ∉ name.toList)
    (he : ending ∈ lineEnds) : Leaves kind (kind ++ "-" ++ name ++ ending) name := by
  have hleaves : Leaves kind (ownPart kind name ++ ending) name := .intro hline he
  rwa [ownPart_name hname] at hleaves

theorem shorthand_unscoped (hk : IsKind kind) (name : String) : shorthand kind (kind ++ "-" ++ name) = name := by
  unfold shorthand
  rw [if_neg, if_pos (Text.startsWith_append _ _), drop_kind]
  rw [String.append_assoc, hk.not_sign]
  decide

/-- The shorthand of a package in a scope. -/
theorem shorthand_scoped (hs : IsScope scope) (hne : scope ≠ "@") (own : String) :
    shorthand kind (scope ++ "/" ++ own) =
      let ending := withoutFinalBreak (Text.drop (kind.length + 1) own)
      if own == kind || withoutFinalBreak own == kind then scope
      else if Text.startsWith own (kind ++ "-") && ending != "" && !ending.toList.contains '\n' then scope ++ "/" ++ ending
      else scope ++ "/" ++ own := by
  have hsign : Text.startsWith (scope ++ "/" ++ own) "@" = true := by
    rw [String.append_assoc]
    exact hs.sign_append _
  have hbare : (scope == "@") = false := by simpa using hne
  unfold shorthand
  rw [if_pos hsign, Text.cutFirst_append hs.slash]
  dsimp only
  rw [hbare, if_neg Bool.false_ne_true]

theorem Leaves.shorthand {own name : String} (h : Leaves kind own name) (hk : IsKind kind) (hs : IsScope scope)
    (hne : scope ≠ "@") :
    shorthand kind (scope ++ "/" ++ own) = if name = "" then scope else scope ++ "/" ++ name := by
  rw [shorthand_scoped hs hne]
  cases h with
  | @intro _ ending hline he =>
    have hwithout := withoutFinalBreak_append (hk.ownPart_line hline) he
    dsimp only
    rw [hwithout]
    by_cases hname : name = ""
    · subst hname
      simp [ownPart_empty]
    · have hsplit : ownPart kind name ++ ending = kind ++ "-" ++ (name ++ ending) := by
        rw [ownPart_name hname, String.append_assoc]
      have hlonger : ∀ rest, ownPart kind name ++ rest ≠ kind := by
        intro rest heq
        have hlength := congrArg String.length heq
        rw [ownPart_name hname] at hlength
        simp only [String.length_append] at hlength
        have : "-".length = 1 := rfl
        omega
      have hkind : ownPart kind name ≠ kind := by
        simpa using hlonger ""
      have hstart : Text.startsWith (ownPart kind name ++ ending) (kind ++ "-") = true := by
        rw [hsplit]
        exact Text.startsWith_append _ _
      have hdrop : Text.drop (kind.length + 1) (ownPart kind name ++ ending) = name ++ ending := by
        rw [hsplit, drop_kind]
      simp [hlonger ending, hkind, hstart, hdrop, withoutFinalBreak_append hline he, hname, hline]

theorem shorthand_bare (kind own : String) : shorthand kind ("@" ++ "/" ++ own) = "@" ++ "/" ++ own := by
  have hsign : Text.startsWith ("@" ++ "/" ++ own) "@" = true := by
    rw [String.append_assoc]
    exact Text.startsWith_append _ _
  rw [shorthand, if_pos hsign, Text.cutFirst_append (by decide)]
  rfl

theorem shorthand_whole {own : String} (h : ∀ name, ¬ Leaves kind own name) (hk : IsKind kind) (hs : IsScope scope) :
    shorthand kind (scope ++ "/" ++ own) = scope ++ "/" ++ own := by
  by_cases hne : scope = "@"
  · subst hne
    exact shorthand_bare kind own
  rw [shorthand_scoped hs hne]
  have hkind : withoutFinalBreak own ≠ kind := by
    intro heq
    obtain ⟨ending, hending, hsplit⟩ := exists_lineEnd own
    rw [heq] at hsplit
    subst hsplit
    exact h "" (leaves_kind kind hending)
  have hown : own ≠ kind := by
    rintro rfl
    exact hkind (withoutFinalBreak_of_not_mem hk.line)
  dsimp only
  rw [if_neg (by simp [hown, hkind])]
  split
  · rename_i hstart
    simp only [Bool.and_eq_true, bne_iff_ne, Bool.not_eq_true', List.contains_eq_mem, decide_eq_false_iff_not] at hstart
    obtain ⟨⟨hstart, hempty⟩, hline⟩ := hstart
    obtain ⟨rest, rfl⟩ := Text.startsWith_iff.mp hstart
    rw [drop_kind] at hempty hline
    obtain ⟨ending, hending, hsplit⟩ := exists_lineEnd rest
    have hleaves := leaves_name kind hempty hline hending
    rw [String.append_assoc, ← hsplit] at hleaves
    exact absurd hleaves (h _)
  · rfl

/-- The shorthands that stand for their packages: a name without the kind, a scope, or a name
in a scope. -/
inductive IsShorthand (kind : String) : String → Prop
  | unscoped {name : String} : '\\' ∉ name.toList → Text.startsWith name "@" = false →
      Text.startsWith name (kind ++ "-") = false → IsShorthand kind name
  | scope {scope : String} : '\\' ∉ scope.toList → scope ≠ "" → '/' ∉ scope.toList → IsShorthand kind ("@" ++ scope)
  | inScope {scope name : String} : '\\' ∉ scope.toList → scope ≠ "" → '/' ∉ scope.toList →
      '\\' ∉ name.toList → name ≠ "" → '\n' ∉ name.toList → name ≠ kind →
      Text.startsWith name (kind ++ "-") = false → IsShorthand kind ("@" ++ scope ++ "/" ++ name)

theorem isScope_sign {scope : String} (hs : '/' ∉ scope.toList) : IsScope ("@" ++ scope) := by
  refine ⟨Text.startsWith_append _ _, ?_⟩
  rw [String.toList_append, List.mem_append, not_or]
  exact ⟨by decide, hs⟩

theorem sign_ne {scope : String} (h : scope ≠ "") : "@" ++ scope ≠ "@" := by
  intro heq
  exact h (String.append_eq_left_iff.mp heq)

theorem not_leaves {own : String} (hline : '\n' ∉ own.toList) (hkind : own ≠ kind)
    (hstart : ∀ more, more ≠ "" → own ≠ kind ++ "-" ++ more) (name : String) : ¬ Leaves kind own name := by
  intro hleaves
  cases hleaves with
  | @intro _ ending _ he =>
    rcases eq_of_mem_lineEnds he with rfl | rfl
    · rw [String.append_empty] at hkind hstart
      by_cases hname : name = ""
      · exact hkind (by rw [hname, ownPart_empty])
      · exact hstart name hname (ownPart_name hname)
    · exact hline (by simp)

/-- The name in a scope comes back, whether or not the kind is put in front of it. -/
theorem shorthand_normalizeScoped {name : String} (hk : IsKind kind) (hs : IsScope scope) (hne : scope ≠ "@")
    (hname : name ≠ "") (hline : '\n' ∉ name.toList) (hkind : name ≠ kind)
    (hstart : Text.startsWith name (kind ++ "-") = false) :
    shorthand kind (normalizeScoped kind scope name) = scope ++ "/" ++ name := by
  have hwithout := withoutFinalBreak_of_not_mem hline
  rw [normalizeScoped_other hk (hwithout.symm ▸ hkind) (hwithout.symm ▸ hname)]
  split
  · refine shorthand_whole (not_leaves hline hkind fun more _ heq => ?_) hk hs
    rw [heq, Text.startsWith_append] at hstart
    cases hstart
  · have hleaves := leaves_name kind hname hline mem_lineEnds_empty
    rw [String.append_empty] at hleaves
    rw [hleaves.shorthand hk hs hne, if_neg hname]

/-- Full names stay, and shorthands come back. -/
theorem names_canonical {kind : String} (hkind : kind ∈ kinds) :
    (∀ name package, normalize kind name = .ok package → normalize kind package = .ok package) ∧
    ∀ name, IsShorthand kind name → (normalize kind name).map (shorthand kind) = .ok name := by
  have hk := isKind_of_mem hkind
  constructor
  · intro name package h
    obtain ⟨hfull, hb⟩ := normalize_isFull hk h
    exact hfull.normalize hk hb
  · intro name h
    cases h with
    | unscoped hb hsign hstart =>
      unfold normalize
      dsimp only
      rw [Text.swap_of_not_mem hb, hsign, hstart, if_neg Bool.false_ne_true, if_neg Bool.false_ne_true, map_ok,
        shorthand_unscoped hk]
    | scope hb hempty hslash =>
      rename_i scope
      have hs := isScope_sign hslash
      have hback : '\\' ∉ ("@" ++ scope).toList := by
        rw [String.toList_append, List.mem_append, not_or]
        exact ⟨by decide, hb⟩
      have hshort := (leaves_kind kind mem_lineEnds_empty).shorthand hk hs (sign_ne hempty)
      rw [String.append_empty, if_pos rfl] at hshort
      unfold normalize
      dsimp only
      rw [Text.swap_of_not_mem hback, if_pos hs.sign, Text.cutFirst_of_not_mem hs.slash]
      dsimp only
      rw [if_neg (by simpa using sign_ne hempty), map_ok, hshort]
    | inScope hb hempty hslash hback hname hline hne hstart =>
      have hs := isScope_sign hslash
      rw [normalize_own hs, map_ok, shorthand_normalizeScoped hk hs (sign_ne hempty) hname hline hne hstart]
      simp only [String.toList_append, List.mem_append, not_or]
      exact ⟨⟨⟨by decide, hb⟩, by decide⟩, hback⟩

theorem names_canonical_sample : pluginKind ∈ kinds ∧
    normalize pluginKind "@scope\\x" = .ok "@scope/eslint-plugin-x" ∧
    normalize pluginKind "@scope/eslint-plugin-x" = .ok "@scope/eslint-plugin-x" ∧
    IsShorthand pluginKind "@scope/eslint-plugin/x" ∧
    (normalize pluginKind "@scope/eslint-plugin/x").map (shorthand pluginKind) = .ok "@scope/eslint-plugin/x" := by
  have hkind : pluginKind ∈ kinds := by decide
  have hname : normalize pluginKind "@scope\\x" = .ok "@scope/eslint-plugin-x" := rfl
  have hshort : IsShorthand pluginKind ("@" ++ "scope" ++ "/" ++ "eslint-plugin/x") :=
    .inScope (by decide) (by decide) (by decide) (by decide) (by decide) (by decide) (by decide) (by decide)
  obtain ⟨hagain, hback⟩ := names_canonical hkind
  exact ⟨hkind, hname, hagain _ _ hname, hshort, hback _ hshort⟩

/-! ## Packages of one shorthand -/

/-- Different packages whose shorthand is the same. -/
inductive Clash (kind : String) : String → String → Prop
  /-- The name of a package without a scope goes on with the shorthand of one in a scope. -/
  | unscoped {package : String} : Text.startsWith package "@" = true →
      Clash kind (kind ++ "-" ++ shorthand kind package) package
  /-- A line break behind the own part is left out. -/
  | lineBreak {scope name : String} : IsScope scope → scope ≠ "@" → '\n' ∉ name.toList →
      Clash kind (scope ++ "/" ++ (ownPart kind name ++ "\n")) (scope ++ "/" ++ ownPart kind name)
  /-- The kind is left out in front of an own part from which it is not left out itself, since
  no name follows it there. -/
  | twice {scope rest ending : String} : IsScope scope → scope ≠ "@" → '\n' ∉ rest.toList →
      (rest = "-" ∨ Text.startsWith rest "/" = true) → ending ∈ lineEnds →
      Clash kind (scope ++ "/" ++ (ownPart kind (kind ++ rest) ++ ending)) (scope ++ "/" ++ (kind ++ rest))

theorem IsKind.append_ne (hk : IsKind kind) (rest : String) : kind ++ rest ≠ "" := by
  obtain ⟨letters, hletters⟩ := hk.letter
  intro heq
  have hlist := congrArg String.toList heq
  rw [String.toList_append, hletters] at hlist
  cases hlist

theorem not_leaves_rest {rest : String} (hk : IsKind kind) (hline : '\n' ∉ rest.toList)
    (h : rest = "-" ∨ Text.startsWith rest "/" = true) (name : String) : ¬ Leaves kind (kind ++ rest) name := by
  refine not_leaves ?_ (fun heq => ?_) (fun more hmore heq => ?_) name
  · rw [String.toList_append, List.mem_append, not_or]
    exact ⟨hk.line, hline⟩
  · rw [String.append_eq_left_iff.mp heq] at h
    rcases h with h | h
    · exact absurd h (by decide)
    · cases h
  · rw [String.append_assoc, String.append_right_inj] at heq
    subst heq
    rcases h with h | h
    · exact hmore (String.append_eq_left_iff.mp h)
    · rw [Text.startsWith_iff_head? rfl, String.toList_append] at h
      cases h

theorem Clash.shorthand_eq {a b : String} (hk : IsKind kind) (h : Clash kind a b) : shorthand kind a = shorthand kind b := by
  cases h with
  | unscoped => rw [shorthand_unscoped hk]
  | @lineBreak scope name hs hne hline =>
    have hbroken : Leaves kind (ownPart kind name ++ "\n") name := .intro hline (by simp [lineEnds])
    have hplain : Leaves kind (ownPart kind name ++ "") name := .intro hline mem_lineEnds_empty
    rw [String.append_empty] at hplain
    rw [hbroken.shorthand hk hs hne, hplain.shorthand hk hs hne]
  | @twice scope rest ending hs hne hline hrest he =>
    have hbreak : '\n' ∉ (kind ++ rest).toList := by
      rw [String.toList_append, List.mem_append, not_or]
      exact ⟨hk.line, hline⟩
    have hleaves : Leaves kind (ownPart kind (kind ++ rest) ++ ending) (kind ++ rest) := .intro hbreak he
    rw [hleaves.shorthand hk hs hne, if_neg (hk.append_ne rest),
      shorthand_whole (not_leaves_rest hk hline hrest) hk hs]

/-- A text goes on with a slash behind what stands in front of the first one. -/
theorem exists_scopeOf (s : String) : ∃ back, s = scopeOf s ++ back ∧ (back = "" ∨ Text.startsWith back "/" = true) := by
  by_cases hslash : '/' ∈ s.toList
  · obtain ⟨front, back, hfront, rfl⟩ := Text.exists_cut hslash
    exact ⟨"/" ++ back, by rw [scopeOf_slash hfront, String.append_assoc], .inr (Text.startsWith_append _ _)⟩
  · exact ⟨"", by rw [scopeOf_of_not_mem hslash, String.append_empty], .inl rfl⟩

theorem Clash.ne {a b : String} (hk : IsKind kind) (h : Clash kind a b) : a ≠ b := by
  cases h with
  | unscoped hsign =>
    intro heq
    rw [← heq, String.append_assoc, hk.not_sign] at hsign
    cases hsign
  | lineBreak =>
    intro heq
    rw [String.append_right_inj] at heq
    exact absurd (String.append_eq_left_iff.mp heq) (by decide)
  | @twice scope rest ending =>
    intro heq
    rw [String.append_right_inj, ownPart_name (hk.append_ne rest)] at heq
    have hlength := congrArg String.length heq
    simp only [String.length_append] at hlength
    have : "-".length = 1 := rfl
    omega

/-- An own part of one line that is full and leaves no name has the kind and no name behind it. -/
theorem exists_rest (hk : IsKind kind) (hne : scope ≠ "@") (hempty : own ≠ "") (hline : '\n' ∉ own.toList)
    (hfull : normalizeScoped kind scope own = scope ++ "/" ++ own) (hwhole : ∀ name, ¬ Leaves kind own name) :
    ∃ rest, own = kind ++ rest ∧ (rest = "-" ∨ Text.startsWith rest "/" = true) := by
  have hwithout := withoutFinalBreak_of_not_mem hline
  have hkind : own ≠ kind := by
    intro heq
    have hleaves := leaves_kind kind mem_lineEnds_empty
    rw [String.append_empty] at hleaves
    exact hwhole "" (heq ▸ hleaves)
  rw [normalizeScoped_other hk (hwithout.symm ▸ hkind) (hwithout.symm ▸ hempty)] at hfull
  -- the part has the kind already, or else the kind would stand in front and the name be longer
  split at hfull
  · rename_i hcond
    have hscope : hasKind kind (scopeOf own) = true := by
      simpa [hne, isOneLine, hwithout, hline] using hcond
    obtain ⟨back, hsplit, hback⟩ := exists_scopeOf own
    have hfront : '\n' ∉ (scopeOf own).toList := by
      intro hmem
      rw [hsplit, String.toList_append] at hline
      exact hline (List.mem_append_left _ hmem)
    rw [hasKind, withoutFinalBreak_of_not_mem hfront, Bool.or_self, Bool.or_eq_true, beq_iff_eq] at hscope
    rcases hscope with hscope | hscope
    · rw [hscope] at hsplit
      refine ⟨back, hsplit, .inr (hback.resolve_left ?_)⟩
      rintro rfl
      exact hkind (hsplit.trans String.append_empty)
    · obtain ⟨front, hfront⟩ := Text.startsWith_iff.mp hscope
      rw [hfront, String.append_assoc] at hsplit
      by_cases hname : front ++ back = ""
      · rw [hname, String.append_empty] at hsplit
        exact ⟨"-", hsplit, .inl rfl⟩
      · have hbehind : '\n' ∉ (front ++ back).toList := by
          rw [hsplit, String.toList_append] at hline
          exact fun hmem => hline (List.mem_append_right _ hmem)
        have hleaves := leaves_name kind hname hbehind mem_lineEnds_empty
        rw [String.append_empty, ← hsplit] at hleaves
        exact absurd hleaves (hwhole _)
  · rw [String.append_right_inj] at hfull
    have hlength := congrArg String.length hfull
    simp only [String.length_append] at hlength
    have : "-".length = 1 := rfl
    omega

theorem shorthand_cases (hk : IsKind kind) (hs : IsScope scope) (own : String) :
    shorthand kind (scope ++ "/" ++ own) = scope ++ "/" ++ own ∧ (scope ≠ "@" → ∀ name, ¬ Leaves kind own name) ∨
    scope ≠ "@" ∧ ∃ name, Leaves kind own name ∧
      shorthand kind (scope ++ "/" ++ own) = if name = "" then scope else scope ++ "/" ++ name := by
  by_cases hne : scope = "@"
  · refine .inl ⟨?_, fun h => absurd hne h⟩
    subst hne
    exact shorthand_bare kind own
  by_cases hleaves : ∃ name, Leaves kind own name
  · obtain ⟨name, hname⟩ := hleaves
    exact .inr ⟨hne, name, hname, hname.shorthand hk hs hne⟩
  · have hwhole : ∀ name, ¬ Leaves kind own name := fun name h => hleaves ⟨name, h⟩
    exact .inl ⟨shorthand_whole hwhole hk hs, fun _ => hwhole⟩

theorem append_slash_inj {scope scope' own own' : String} (hs : '/' ∉ scope.toList) (hs' : '/' ∉ scope'.toList)
    (h : scope ++ "/" ++ own = scope' ++ "/" ++ own') : scope = scope' ∧ own = own' := by
  have hcut := congrArg (Text.cutFirst '/') h
  rw [Text.cutFirst_append hs, Text.cutFirst_append hs'] at hcut
  exact Prod.mk.inj (Option.some.inj hcut)

theorem ne_append_slash {scope : String} (hs : '/' ∉ scope.toList) (front back : String) : scope ≠ front ++ "/" ++ back := by
  rintro rfl
  simp at hs

/-- Of two packages in scopes one of which leaves a name the other one may be that name. -/
theorem clash_of_whole {scope scope' own own' name : String} (hk : IsKind kind) (hs : IsScope scope)
    (hs' : IsScope scope') (hfull : normalizeScoped kind scope own = scope ++ "/" ++ own)
    (hwhole : scope ≠ "@" → ∀ name, ¬ Leaves kind own name) (hne : scope' ≠ "@") (hleaves : Leaves kind own' name)
    (h : scope ++ "/" ++ own = if name = "" then scope' else scope' ++ "/" ++ name) :
    Clash kind (scope' ++ "/" ++ own') (scope ++ "/" ++ own) := by
  split at h
  · exact absurd h.symm (ne_append_slash hs'.slash scope own)
  · rename_i hname
    obtain ⟨rfl, rfl⟩ := append_slash_inj hs.slash hs'.slash h
    cases hleaves with
    | @intro _ ending hline he =>
      obtain ⟨rest, rfl, hrest⟩ := exists_rest hk hne hname hline hfull (hwhole hne)
      refine .twice hs hne (fun hmem => hline ?_) hrest he
      rw [String.toList_append]
      exact List.mem_append_right _ hmem

/-- Packages in scopes that leave the same name differ in a line break at most. -/
theorem eq_or_clash_of_leaves {scope scope' own own' name name' : String} (hs : IsScope scope) (hs' : IsScope scope')
    (hne : scope ≠ "@") (hleaves : Leaves kind own name) (hleaves' : Leaves kind own' name')
    (h : (if name = "" then scope else scope ++ "/" ++ name) = if name' = "" then scope' else scope' ++ "/" ++ name') :
    scope ++ "/" ++ own = scope' ++ "/" ++ own' ∨ Clash kind (scope ++ "/" ++ own) (scope' ++ "/" ++ own') ∨
      Clash kind (scope' ++ "/" ++ own') (scope ++ "/" ++ own) := by
  have hsame : scope = scope' ∧ name = name' := by
    split at h
    · rename_i hname
      split at h
      · rename_i hname'
        exact ⟨h, hname.trans hname'.symm⟩
      · exact absurd h (ne_append_slash hs.slash scope' name')
    · split at h
      · exact absurd h.symm (ne_append_slash hs'.slash scope name)
      · exact append_slash_inj hs.slash hs'.slash h
  obtain ⟨rfl, rfl⟩ := hsame
  cases hleaves with
  | @intro _ ending hline he =>
    cases hleaves' with
    | @intro _ ending' _ he' =>
      have hbreak : Clash kind (scope ++ "/" ++ (ownPart kind name ++ "\n")) (scope ++ "/" ++ ownPart kind name) :=
        .lineBreak hs hne hline
      rcases eq_of_mem_lineEnds he with rfl | rfl <;> rcases eq_of_mem_lineEnds he' with rfl | rfl
      · exact .inl rfl
      · exact .inr (.inr (by rwa [String.append_empty]))
      · exact .inr (.inl (by rwa [String.append_empty]))
      · exact .inl rfl

/-- Full names have one shorthand only if they are the same or clash. -/
theorem shorthand_eq_iff {a b : String} (hk : IsKind kind) (ha : IsFull kind a) (hb : IsFull kind b) :
    shorthand kind a = shorthand kind b ↔ a = b ∨ Clash kind a b ∨ Clash kind b a := by
  refine ⟨fun h => ?_, ?_⟩
  · cases ha with
    | unscoped name =>
      cases hb with
      | unscoped name' =>
        rw [shorthand_unscoped hk, shorthand_unscoped hk] at h
        exact .inl (by rw [h])
      | @inScope scope own hs hfull =>
        rw [shorthand_unscoped hk] at h
        rw [h]
        refine .inr (.inl (.unscoped ?_))
        rw [String.append_assoc]
        exact hs.sign_append _
    | @inScope scope own hs hfull =>
      cases hb with
      | unscoped name' =>
        rw [shorthand_unscoped hk] at h
        rw [← h]
        refine .inr (.inr (.unscoped ?_))
        rw [String.append_assoc]
        exact hs.sign_append _
      | @inScope scope' own' hs' hfull' =>
        -- in each of the scopes the shorthand is the full name, or leaves the kind out of it
        rcases shorthand_cases hk hs own with ⟨hshort, hwhole⟩ | ⟨hne, name, hleaves, hshort⟩ <;>
          rcases shorthand_cases hk hs' own' with ⟨hshort', hwhole'⟩ | ⟨hne', name', hleaves', hshort'⟩ <;>
          rw [hshort, hshort'] at h
        · exact .inl h
        · exact .inr (.inr (clash_of_whole hk hs hs' hfull hwhole hne' hleaves' h))
        · exact .inr (.inl (clash_of_whole hk hs' hs hfull' hwhole' hne hleaves h.symm))
        · exact eq_or_clash_of_leaves hs hs' hne hleaves hleaves' h
  · rintro (rfl | h | h)
    · rfl
    · exact h.shorthand_eq hk
    · exact (h.shorthand_eq hk).symm

end Cascade.Package
