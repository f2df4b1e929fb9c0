import Cascade.Text.Basic

/-! # Parts of texts

The fields of a text do not contain the separator, and texts that do not contain
it are the fields of what they are joined to. A text begins with what something is
appended to, and is cut there again. -/
namespace Cascade.Text

/-- The first field ends at a separator, or at the end, and every other one follows a separator. -/
theorem splitOnP_eq {α : Type} (p : α → Bool) (l : List α) : ∃ first others, l.splitOnP p = first :: others ∧
    (∃ after, l = first ++ after ∧ (∀ c ∈ first, p c = false) ∧ ∀ c ∈ after.head?, p c = true) ∧
    ∀ field ∈ others, ∃ before sep after, l = before ++ sep :: (field ++ after) ∧ p sep = true ∧
      (∀ c ∈ field, p c = false) ∧ ∀ c ∈ after.head?, p c = true := by
  induction l with
  | nil => exact ⟨[], [], rfl, ⟨[], rfl, by simp⟩, by simp⟩
  | cons c rest ih =>
    obtain ⟨first, others, hrest, ⟨after, hfirst, hfree, hafter⟩, hothers⟩ := ih
    have hmore : ∀ field ∈ others, ∃ before sep after, c :: rest = before ++ sep :: (field ++ after) ∧ p sep = true ∧
        (∀ c ∈ field, p c = false) ∧ ∀ c ∈ after.head?, p c = true := by
      intro field hfield
      obtain ⟨before, sep, after, hsplit, h⟩ := hothers field hfield
      exact ⟨c :: before, sep, after, congrArg (c :: ·) hsplit, h⟩
    rw [List.splitOnP_cons_eq_if_modifyHead, hrest]
    by_cases hc : p c = true
    · rw [if_pos hc]
      refine ⟨[], first :: others, rfl, ⟨c :: rest, rfl, by simp, by simpa using hc⟩, ?_⟩
      exact List.forall_mem_cons.mpr ⟨⟨[], c, after, congrArg (c :: ·) hfirst, hc, hfree, hafter⟩, hmore⟩
    · rw [if_neg hc]
      refine ⟨c :: first, others, rfl, ⟨after, congrArg (c :: ·) hfirst, ?_, hafter⟩, hmore⟩
      exact List.forall_mem_cons.mpr ⟨by simpa using hc, hfree⟩

/-- A field is what stands between separators, or at an end. -/
theorem mem_splitOnP {α : Type} {p : α → Bool} {field l : List α} : field ∈ l.splitOnP p ↔ ∃ before after,
    l = before ++ field ++ after ∧ (∀ c ∈ field, p c = false) ∧ (∀ c ∈ before.getLast?, p c = true) ∧
      ∀ c ∈ after.head?, p c = true := by
  constructor
  · intro h
    obtain ⟨first, others, hl, ⟨after, hfirst, hfree, hafter⟩, hothers⟩ := splitOnP_eq p l
    rw [hl] at h
    rcases List.mem_cons.mp h with rfl | h
    · exact ⟨[], after, hfirst, hfree, by simp, hafter⟩
    · obtain ⟨before, sep, after, hsplit, hsep, hfree, hafter⟩ := hothers field h
      exact ⟨before ++ [sep], after, by simp [hsplit], hfree, by simpa using hsep, hafter⟩
  · rintro ⟨before, after, rfl, hf, hb, ha⟩
    have hend : field ∈ (field ++ after).splitOnP p := by
      cases after with
      | nil => simp [List.splitOnP_eq_singleton hf]
      | cons c after =>
        rw [List.splitOnP_append_cons _ _ (ha c rfl), List.splitOnP_eq_singleton hf]
        simp
    rcases List.eq_nil_or_concat before with rfl | ⟨front, c, rfl⟩
    · exact hend
    · rw [List.append_assoc, List.concat_eq_append, List.append_assoc, List.singleton_append,
        List.splitOnP_append_cons _ _ (hb c (by simp))]
      exact List.mem_append_right _ hend

/-- What is between separators of one kind is so between separators of more kinds, unless it has one of them. -/
theorem mem_splitOnP_of_imp {α : Type} {p q : α → Bool} {field l : List α} (h : field ∈ l.splitOnP p)
    (hq : ∀ c ∈ field, q c = false) (hpq : ∀ c, p c = true → q c = true) : field ∈ l.splitOnP q := by
  obtain ⟨before, after, hl, -, hb, ha⟩ := mem_splitOnP.mp h
  exact mem_splitOnP.mpr ⟨before, after, hl, hq, fun c hc => hpq c (hb c hc), fun c hc => hpq c (ha c hc)⟩

/-- Characters may be changed after a text is split as well as before. -/
theorem splitOnP_map {α β : Type} (f : α → β) (p : β → Bool) (l : List α) :
    (l.map f).splitOnP p = (l.splitOnP fun c => p (f c)).map (List.map f) := by
  induction l with
  | nil => rfl
  | cons c rest ih =>
    rw [List.map_cons, List.splitOnP_cons_eq_if_modifyHead, List.splitOnP_cons_eq_if_modifyHead, ih]
    split
    · rfl
    · cases rest.splitOnP fun c => p (f c) <;> rfl

section
variable {α : Type} [BEq α] {sep : α} {field l : List α}

theorem not_mem_of_mem_splitOn [LawfulBEq α] (h : field ∈ l.splitOn sep) : sep ∉ field := by
  obtain ⟨-, -, -, hfree, -⟩ := mem_splitOnP.mp h
  exact fun hsep => by simpa using hfree sep hsep

theorem mem_of_mem_splitOn {c : α} (h : field ∈ l.splitOn sep) (hc : c ∈ field) : c ∈ l := by
  obtain ⟨before, after, rfl, -⟩ := mem_splitOnP.mp h
  simp [hc]

end

theorem not_mem_of_mem_fields {sep : Char} {s field : String} (h : field ∈ fields sep s) :
    sep ∉ field.toList := by
  obtain ⟨l, hl, rfl⟩ := List.mem_map.mp h
  rw [String.toList_ofList]
  exact not_mem_of_mem_splitOn hl

/-- What follows the last separator stays in the last field. -/
theorem splitOn_append {α : Type} [BEq α] [LawfulBEq α] {sep : α} {ending : List α} (hs : sep ∉ ending)
    (l : List α) : ∃ before last, (l ++ ending).splitOn sep = before ++ [last ++ ending] := by
  induction l with
  | nil => exact ⟨[], [], by simp [List.splitOn_eq_singleton hs]⟩
  | cons c rest ih =>
    obtain ⟨before, last, hr⟩ := ih
    rw [List.cons_append, List.splitOn_cons_eq_if_modifyHead, hr]
    split
    · exact ⟨[] :: before, last, rfl⟩
    · cases before with
      | nil => exact ⟨[], c :: last, rfl⟩
      | cons first before => exact ⟨(c :: first) :: before, last, rfl⟩

theorem fields_single {sep : Char} {s : String} (h : sep ∉ s.toList) : fields sep s = [s] := by
  rw [fields, List.splitOn_eq_singleton h, List.map_singleton, String.ofList_toList]

theorem fields_intercalate {parts : List String} (hn : parts ≠ []) (hd : ∀ part ∈ parts, '.' ∉ part.toList) :
    fields '.' (String.intercalate "." parts) = parts := by
  have hdots : ∀ l ∈ parts.map String.toList, '.' ∉ l := by
    intro l hl
    obtain ⟨part, hp, rfl⟩ := List.mem_map.mp hl
    exact hd part hp
  rw [fields, String.toList_intercalate]
  show (List.splitOn '.' (List.intercalate ['.'] (parts.map String.toList))).map String.ofList = parts
  rw [List.splitOn_intercalate '.' hdots (by simpa using hn), List.map_map]
  exact (List.map_congr_left fun part _ => String.ofList_toList).trans (List.map_id _)

theorem intercalate_fields (s : String) : String.intercalate "." (fields '.' s) = s := by
  rw [← String.toList_inj, String.toList_intercalate, fields, List.map_map]
  have hid : (String.toList ∘ String.ofList) = id := funext fun _ => String.toList_ofList
  rw [hid, List.map_id]
  exact List.intercalate_splitOn '.'

/-! ## Beginnings -/

theorem startsWith_iff {s start : String} : startsWith s start = true ↔ ∃ rest, s = start ++ rest := by
  rw [startsWith, List.isPrefixOf_iff_prefix]
  constructor
  · rintro ⟨rest, hr⟩
    refine ⟨String.ofList rest, String.toList_inj.mp ?_⟩
    rw [String.toList_append, String.toList_ofList, hr]
  · rintro ⟨rest, rfl⟩
    exact ⟨rest.toList, by rw [String.toList_append]⟩

theorem startsWith_append (start rest : String) : startsWith (start ++ rest) start = true :=
  startsWith_iff.mpr ⟨rest, rfl⟩

theorem startsWith_append_of {s start : String} (h : startsWith s start = true) (rest : String) :
    startsWith (s ++ rest) start = true := by
  obtain ⟨more, rfl⟩ := startsWith_iff.mp h
  rw [String.append_assoc]
  exact startsWith_append _ _

theorem drop_append (start rest : String) : drop start.length (start ++ rest) = rest := by
  rw [drop, String.toList_append, ← String.length_toList, List.drop_left, String.ofList_toList]

theorem swap_of_not_mem {old new : Char} {s : String} (h : old ∉ s.toList) : swap old new s = s := by
  have hsame : ∀ c ∈ s.toList, (if c == old then new else c) = c := by
    intro c hc
    have hne : c ≠ old := fun heq => h (heq ▸ hc)
    rw [if_neg (by simpa using hne)]
  rw [swap, List.map_congr_left hsame, List.map_id', String.ofList_toList]

theorem not_mem_swap {old new : Char} (h : old ≠ new) (s : String) : old ∉ (swap old new s).toList := by
  rw [swap, String.toList_ofList, List.mem_map]
  rintro ⟨c, -, hc⟩
  split at hc
  · exact h hc.symm
  · rename_i hne
    exact hne (by simp [hc])

theorem bne_of_not_mem {sep : Char} {s : String} (h : sep ∉ s.toList) : ∀ c ∈ s.toList, (c != sep) = true := by
  intro c hc
  have hne : c ≠ sep := fun heq => h (heq ▸ hc)
  simpa using hne

/-- The parts of a text around its first slash. -/
theorem exists_cut {s : String} (h : '/' ∈ s.toList) : ∃ front back, '/' ∉ front.toList ∧ s = front ++ "/" ++ back := by
  obtain ⟨before, after, hsplit, hb⟩ := List.eq_append_cons_of_mem h
  refine ⟨String.ofList before, String.ofList after, by rwa [String.toList_ofList], ?_⟩
  rw [← String.toList_inj, hsplit]
  simp

theorem cutFirst_append {front : String} (h : '/' ∉ front.toList) (back : String) :
    cutFirst '/' (front ++ "/" ++ back) = some (front, back) := by
  have hlist : (front ++ "/" ++ back).toList = front.toList ++ '/' :: back.toList := by simp
  rw [cutFirst, hlist, List.takeWhile_append_of_pos (bne_of_not_mem h), List.dropWhile_append_of_pos (bne_of_not_mem h)]
  simp

theorem cutFirst_of_not_mem {s : String} (h : '/' ∉ s.toList) : cutFirst '/' s = none := by
  rw [cutFirst, if_neg (by simpa using h)]

/-- The first field of a text is what stands before the first separator. -/
theorem head?_fields (sep : Char) (s : String) :
    (fields sep s).head? = some (String.ofList (s.toList.takeWhile (· != sep))) := by
  rw [fields, List.head?_map]
  induction s.toList with
  | nil => rfl
  | cons c rest ih =>
    rw [List.splitOn_cons_eq_if_modifyHead]
    by_cases hc : c = sep
    · simp [hc]
    · rw [if_neg (by simpa using hc)]
      cases hs : rest.splitOn sep with
      | nil => exact absurd hs (List.splitOn_ne_nil _ _)
      | cons first fields =>
        rw [hs] at ih
        have hfirst : String.ofList first = String.ofList (rest.takeWhile (· != sep)) := by simpa using ih
        simpa [hc] using hfirst

end Cascade.Text
