import Mathlib.Algebra.GroupWithZero.Nat
import Mathlib.Algebra.Order.BigOperators.Group.List
import Mathlib.Algebra.Order.Group.Nat
import Mathlib.Data.List.TakeWhile
import Cascade.Console.Markup
import Cascade.Proofs.Result

/-! # What the console shows of a text

Reading takes signs away and brings none about: a mark loses its bracket or some of the
backslashes before it, a bracket its backslash, and a picture stands for two colons. So a
text is shown as it stands only if nothing of this happens to it. -/
namespace Cascade.Console

variable {console : Console} {cs held rest : List Char}

/-! ## Signs -/

def signs (cs : List Char) : Nat := cs.countP isSign

@[simp] theorem signs_nil : signs [] = 0 := rfl

@[simp] theorem signs_append (cs ds : List Char) : signs (cs ++ ds) = signs cs + signs ds :=
  List.countP_append

theorem signs_cons (c : Char) (cs : List Char) : signs (c :: cs) = signs cs + if isSign c then 1 else 0 :=
  List.countP_cons

theorem signs_replicate (n : Nat) (c : Char) : signs (List.replicate n c) = if isSign c then n else 0 :=
  List.countP_replicate

theorem signs_eq_zero (h : ∀ c ∈ cs, isSign c = false) : signs cs = 0 :=
  List.countP_eq_zero.mpr fun c hc => by simp [h c hc]

section
variable {α : Type} {l : List α} {f g : α → List Char}

theorem signs_flatMap (l : List α) (f : α → List Char) : signs (l.flatMap f) = (l.map fun x => signs (f x)).sum :=
  List.countP_flatMap

theorem signs_flatMap_le (h : ∀ x ∈ l, signs (f x) ≤ signs (g x)) : signs (l.flatMap f) ≤ signs (l.flatMap g) := by
  rw [signs_flatMap, signs_flatMap]
  exact List.sum_le_sum h

theorem signs_flatMap_lt (h : ∀ x ∈ l, signs (f x) ≤ signs (g x)) (hlt : ∃ x ∈ l, signs (f x) < signs (g x)) :
    signs (l.flatMap f) < signs (l.flatMap g) := by
  rw [signs_flatMap, signs_flatMap]
  exact List.sum_lt_sum _ _ h hlt

end

/-! ## Brackets with a backslash -/

/-- Whether a backslash stands right before a bracket. -/
def Escapes (cs : List Char) : Prop := ∃ before after, cs = before ++ '\\' :: '[' :: after

theorem Escapes.cons (h : Escapes rest) (c : Char) : Escapes (c :: rest) := by
  obtain ⟨before, after, rfl⟩ := h
  exact ⟨c :: before, after, rfl⟩

theorem unescaped_eq_self (h : ¬ Escapes cs) : unescaped cs = cs := by
  fun_induction unescaped cs with
  | case1 rest ih => exact absurd ⟨[], rest, rfl⟩ h
  | case2 c rest hc ih => rw [ih fun hrest => h (hrest.cons c)]
  | case3 => rfl

theorem signs_unescaped_le (cs : List Char) : signs (unescaped cs) ≤ signs cs := by
  fun_induction unescaped cs with
  | case1 rest ih =>
    rw [signs_cons, signs_cons, signs_cons]
    omega
  | case2 c rest hc ih =>
    rw [signs_cons, signs_cons]
    omega
  | case3 => exact Nat.le_refl _

theorem signs_unescaped_lt (h : Escapes cs) : signs (unescaped cs) < signs cs := by
  fun_induction unescaped cs with
  | case1 rest ih =>
    have hrest := signs_unescaped_le rest
    rw [signs_cons, signs_cons, signs_cons, if_pos (show isSign '\\' = true by decide)]
    omega
  | case2 c rest hc ih =>
    obtain ⟨before, after, heq⟩ := h
    cases before with
    | nil =>
      obtain ⟨rfl, rfl⟩ := List.cons.inj heq
      exact absurd rfl (hc after rfl)
    | cons d before =>
      have hlt := ih ⟨before, after, (List.cons.inj heq).2⟩
      rw [signs_cons, signs_cons]
      omega
  | case3 =>
    obtain ⟨before, after, heq⟩ := h
    cases before <;> cases heq

/-! ## Pictures -/

theorem written_chars (cs : List Char) : (cs.map Part.char).flatMap Part.written = cs := by
  rw [List.flatMap_map]
  exact List.flatMap_singleton' cs

/-- What has been read of a name that is not over, with its colon. -/
def begun : Option (List Char) → List Char
  | none => []
  | some name => ':' :: name.reverse

/-- The parts of a text are all of it. -/
theorem written_parts (name : Option (List Char)) (cs : List Char) :
    (parts name cs).flatMap Part.written = begun name ++ cs := by
  fun_induction parts name cs with
  | case1 => rfl
  | case2 name => rw [written_chars, begun, List.append_nil]
  | case3 c rest hc ih =>
    obtain rfl : c = ':' := by simpa using hc
    exact ih
  | case4 c rest hc ih => exact congrArg (c :: ·) ih
  | case5 name c rest hc ih =>
    obtain rfl : c = ':' := by simpa using hc
    rw [List.flatMap_cons, ih]
    simp [begun, Part.written]
  | case6 name c rest hc hspace ih =>
    rw [List.flatMap_append, written_chars, ih]
    simp [begun]
  | case7 name c rest hc hspace ih =>
    rw [ih]
    simp [begun]

theorem pictured_of_none {part : Part} (h : ∀ name, part = .code name → console.picture? name = none) :
    console.pictured part = part.written := by
  cases part with
  | char c => rfl
  | code name => rw [pictured, h name rfl, Option.getD_none]

theorem signs_pictured_lt {name picture : List Char} (h : console.picture? name = some picture) :
    signs (console.pictured (.code name)) < signs (Part.written (.code name)) := by
  rw [pictured, h, Option.getD_some, signs_eq_zero (console.picture_plain name picture h), Part.written, signs_cons,
    if_pos (show isSign ':' = true by decide)]
  omega

theorem signs_pictured_le (console : Console) (part : Part) : signs (console.pictured part) ≤ signs part.written := by
  cases part with
  | char c => exact Nat.le_refl _
  | code name =>
    cases hp : console.picture? name with
    | none => rw [pictured, hp, Option.getD_none]
    | some picture => exact Nat.le_of_lt (signs_pictured_lt hp)

/-! ## Text between marks -/

/-- Controls are no signs. -/
theorem signs_filter (cs : List Char) : signs (cs.filter (!isControl ·)) = signs cs := by
  rw [signs, List.countP_filter]
  refine List.countP_congr fun c _ => ?_
  have hcontrol : isSign c = true → isControl c = false := by
    intro hc
    simp only [isSign, Bool.or_eq_true, beq_iff_eq] at hc
    rcases hc with (rfl | rfl) | rfl <;> decide
  simpa using hcontrol

theorem signs_plain_le_unescaped (console : Console) (cs : List Char) :
    signs (console.plain cs) ≤ signs (unescaped cs) := by
  have hparts := signs_flatMap_le fun part (_ : part ∈ parts none (unescaped cs)) => signs_pictured_le console part
  rw [written_parts] at hparts
  rw [plain, signs_filter]
  exact hparts

theorem signs_plain_le (console : Console) (cs : List Char) : signs (console.plain cs) ≤ signs cs :=
  (signs_plain_le_unescaped console cs).trans (signs_unescaped_le cs)

theorem signs_plain_lt {name picture : List Char} (h : Part.code name ∈ parts none (unescaped cs))
    (hp : console.picture? name = some picture) : signs (console.plain cs) < signs (unescaped cs) := by
  have hparts := signs_flatMap_lt (fun part _ => signs_pictured_le console part)
    ⟨.code name, h, signs_pictured_lt hp⟩
  rw [written_parts] at hparts
  rw [plain, signs_filter]
  exact hparts

theorem plain_eq_self (hescapes : ¬ Escapes cs)
    (hpictures : ∀ name, Part.code name ∈ parts none cs → console.picture? name = none)
    (hcontrols : ∀ c ∈ cs, isControl c = false) : console.plain cs = cs := by
  have hparts : (parts none cs).flatMap console.pictured = (parts none cs).flatMap Part.written :=
    List.flatMap_congr fun part hpart => pictured_of_none fun name hname => hpictures name (hname ▸ hpart)
  rw [plain, unescaped_eq_self hescapes, hparts, written_parts]
  exact List.filter_eq_self.mpr fun c hc => by simp [hcontrols c hc]

theorem isControl_of_mem_plain {c : Char} (h : c ∈ console.plain cs) : isControl c = false := by
  simpa using (List.mem_filter.mp h).2

/-! ## Marks -/

/-- The inside of a mark: it begins as one, and there is no bracket in it. -/
structure IsMark (name : List Char) : Prop where
  starts : ∃ c ∈ name.head?, startsMark c = true
  inside : ∀ c ∈ name, inMark c = true

/-- Whether there is a mark in a text, however many backslashes are before it. -/
def Marked (cs : List Char) : Prop :=
  ∃ before name after, IsMark name ∧ cs = before ++ '[' :: (name ++ ']' :: after)

theorem inMark_of_startsMark {c : Char} (h : startsMark c = true) : inMark c = true := by
  have hopening : c ≠ '[' := by
    intro hc
    subst hc
    exact absurd h (by decide)
  have hclosing : c ≠ ']' := by
    intro hc
    subst hc
    exact absurd h (by decide)
  simp [inMark, hopening, hclosing]

theorem mark?_eq_some {name after : List Char} :
    mark? cs = some (name, after) ↔ IsMark name ∧ cs = '[' :: (name ++ ']' :: after) := by
  constructor
  · intro h
    unfold mark? at h
    split at h
    · rename_i c rest
      split at h
      · rename_i hstarts
        split at h
        · rename_i hdrop
          obtain ⟨rfl, rfl⟩ := Prod.mk.inj (Option.some.inj h)
          have hsplit := List.takeWhile_append_dropWhile (p := inMark) (l := rest)
          rw [hdrop] at hsplit
          refine ⟨⟨⟨c, rfl, hstarts⟩, List.forall_mem_cons.mpr ⟨inMark_of_startsMark hstarts, ?_⟩⟩, ?_⟩
          · exact fun d hd => List.mem_takeWhile_imp hd
          · rw [List.cons_append, hsplit]
        · cases h
      · cases h
    · cases h
  · intro h
    obtain ⟨⟨⟨c, hc, hstarts⟩, hinside⟩, rfl⟩ := h
    cases name with
    | nil => cases hc
    | cons d more =>
      cases hc
      obtain ⟨-, hmore⟩ := List.forall_mem_cons.mp hinside
      rw [List.cons_append, mark?, if_pos hstarts, List.dropWhile_append_of_pos hmore, List.takeWhile_append_of_pos hmore]
      simp [inMark]

theorem marked_cons {c : Char} : Marked (c :: rest) ↔ (∃ mark, mark? (c :: rest) = some mark) ∨ Marked rest := by
  constructor
  · intro h
    obtain ⟨before, name, after, hname, heq⟩ := h
    cases before with
    | nil => exact .inl ⟨(name, after), mark?_eq_some.mpr ⟨hname, heq⟩⟩
    | cons d before => exact .inr ⟨before, name, after, hname, (List.cons.inj heq).2⟩
  · intro h
    rcases h with ⟨⟨name, after⟩, hm⟩ | ⟨before, name, after, hname, rfl⟩
    · obtain ⟨hname, heq⟩ := mark?_eq_some.mp hm
      exact ⟨[], name, after, hname, heq⟩
    · exact ⟨c :: before, name, after, hname, rfl⟩

/-! ## Pieces -/

/-- What stands in the text where a piece was read. -/
def Piece.written : Piece → List Char
  | .text cs => cs
  | .mark slashes name => List.replicate slashes '\\' ++ '[' :: (name ++ [']'])

variable {fuel slashes : Nat}

theorem length_after {name after : List Char} (h : mark? cs = some (name, after)) : after.length < cs.length := by
  obtain ⟨-, rfl⟩ := mark?_eq_some.mp h
  simp only [List.length_cons, List.length_append]
  omega

/-- The pieces of a text are all of it. -/
theorem written_piecesFrom (h : cs.length < fuel) :
    (piecesFrom fuel held slashes cs).flatMap Piece.written = held.reverse ++ List.replicate slashes '\\' ++ cs := by
  fun_induction piecesFrom fuel held slashes cs with
  | case1 => omega
  | case2 => simp [Piece.written]
  | case3 fuel held slashes c rest hc ih =>
    obtain rfl : c = '\\' := by simpa using hc
    rw [ih (by simpa using h), List.replicate_succ']
    simp
  | case4 fuel held slashes c rest hc name after hm ih =>
    have hlength := length_after hm
    obtain ⟨-, heq⟩ := mark?_eq_some.mp hm
    rw [List.flatMap_cons, List.flatMap_cons, ih (by omega), heq]
    simp [Piece.written]
  | case5 fuel held slashes c rest hc hm ih =>
    rw [ih (by simpa using h)]
    simp

/-- A text without marks is one piece. -/
theorem piecesFrom_unmarked (h : cs.length < fuel) (hm : ¬ Marked cs) :
    piecesFrom fuel held slashes cs = [.text (held.reverse ++ List.replicate slashes '\\' ++ cs)] := by
  fun_induction piecesFrom fuel held slashes cs with
  | case1 => omega
  | case2 => rw [List.append_nil]
  | case3 fuel held slashes c rest hc ih =>
    obtain rfl : c = '\\' := by simpa using hc
    rw [ih (by simpa using h) fun hrest => hm (marked_cons.mpr (.inr hrest)), List.replicate_succ']
    simp
  | case4 fuel held slashes c rest hc name after hmark ih => exact absurd (marked_cons.mpr (.inl ⟨_, hmark⟩)) hm
  | case5 fuel held slashes c rest hc hnone ih =>
    rw [ih (by simpa using h) fun hrest => hm (marked_cons.mpr (.inr hrest))]
    simp

/-- A text with marks has one among its pieces. -/
theorem exists_mark (h : cs.length < fuel) (hm : Marked cs) :
    ∃ n name, Piece.mark n name ∈ piecesFrom fuel held slashes cs := by
  fun_induction piecesFrom fuel held slashes cs with
  | case1 => omega
  | case2 =>
    obtain ⟨before, name, after, -, heq⟩ := hm
    cases before <;> cases heq
  | case3 fuel held slashes c rest hc ih =>
    obtain rfl : c = '\\' := by simpa using hc
    rcases marked_cons.mp hm with ⟨mark, hmark⟩ | hrest
    -- A backslash begins no mark.
    · cases hmark
    · exact ih (by simpa using h) hrest
  | case4 fuel held slashes c rest hc name after hmark ih => exact ⟨slashes, name, by simp⟩
  | case5 fuel held slashes c rest hc hnone ih =>
    rcases marked_cons.mp hm with ⟨mark, hmark⟩ | hrest
    · cases hnone.symm.trans hmark
    · exact ih (by simpa using h) hrest

/-- Text in front of pieces, of which the first one is text. -/
def prepended (front : List Char) : List Piece → List Piece
  | .text cs :: rest => .text (front ++ cs) :: rest
  | ps => ps

theorem prepended_nil (ps : List Piece) : prepended [] ps = ps := by
  unfold prepended
  split <;> rfl

/-- Text that is held comes in front of the pieces, and any fuel that is enough gives the same. -/
theorem piecesFrom_held (held front : List Char) {k : Nat} (h : cs.length < fuel) (h' : cs.length ≤ k) :
    piecesFrom (k + 1) (held ++ front.reverse) slashes cs = prepended front (piecesFrom fuel held slashes cs) := by
  fun_induction piecesFrom fuel held slashes cs generalizing k front with
  | case1 => omega
  | case2 fuel held slashes hpos => simp [piecesFrom, prepended]
  | case3 fuel held slashes c rest hc ih =>
    obtain ⟨j, rfl⟩ := Nat.exists_eq_add_of_lt h'
    rw [piecesFrom, if_pos hc]
    exact ih front (by simpa using h) (by omega)
  | case4 fuel held slashes c rest hc name after hm ih =>
    obtain ⟨j, rfl⟩ := Nat.exists_eq_add_of_lt h'
    have hlength := length_after hm
    -- Nothing is held after a mark, so that the rest differs in its fuel only.
    have hafter := ih [] (k := rest.length + j) (by omega) (by simp only [List.length_cons] at hlength; omega)
    rw [prepended_nil] at hafter
    rw [piecesFrom, if_neg hc, hm, ← hafter]
    simp [prepended]
  | case5 fuel held slashes c rest hc hm ih =>
    obtain ⟨j, rfl⟩ := Nat.exists_eq_add_of_lt h'
    rw [piecesFrom, if_neg hc, hm, ← ih front (k := rest.length + j) (by simpa using h) (by omega)]
    simp

/-! ## What is shown of the pieces -/

/-- The mark that a piece is; an odd backslash makes it text. -/
def Piece.mark? : Piece → Option (List Char)
  | .text _ => none
  | .mark slashes name => if slashes % 2 == 1 then none else some name

/-- What is shown of a piece. -/
def shownOf (console : Console) : Piece → List Char
  | .text cs => console.plain cs
  | .mark slashes name =>
    List.replicate (slashes / 2) '\\' ++ if slashes % 2 == 1 then console.plain ('[' :: (name ++ [']'])) else []

/-- The text around marks does not depend on them, if none of them breaks it off. -/
theorem textOf_eq (ps : List Piece) (opened : List Opened) : console.textOf ps opened =
    ((ps.filterMap Piece.mark?).foldlM console.follow opened).map fun _ => ps.flatMap console.shownOf := by
  induction ps generalizing opened with
  | nil => rfl
  | cons p rest ih =>
    cases p with
    | text cs =>
      rw [textOf, ih, List.filterMap_cons_none (by rfl), List.flatMap_cons]
      cases (rest.filterMap Piece.mark?).foldlM console.follow opened <;> rfl
    | mark slashes name =>
      rw [textOf, List.flatMap_cons]
      by_cases hodd : (slashes % 2 == 1) = true
      · rw [if_pos hodd, ih, List.filterMap_cons_none (by rw [Piece.mark?, if_pos hodd]), shownOf, if_pos hodd]
        cases (rest.filterMap Piece.mark?).foldlM console.follow opened <;> simp
      · rw [if_neg hodd, List.filterMap_cons_some (by rw [Piece.mark?, if_neg hodd]), List.foldlM_cons, shownOf,
          if_neg hodd, List.append_nil]
        cases hfollow : console.follow opened name with
        | error f => rfl
        | ok next =>
          rw [ok_bind, ok_bind, ih]
          cases (rest.filterMap Piece.mark?).foldlM console.follow next <;> rfl

theorem signs_mark_lt (slashes : Nat) (name : List Char) :
    signs (console.shownOf (.mark slashes name)) < signs (Piece.written (.mark slashes name)) := by
  have hwritten : signs (Piece.written (.mark slashes name)) = slashes + (signs name + 1) := by
    simp [Piece.written, signs_replicate, signs_cons, isSign]
  rw [hwritten, shownOf, signs_append, signs_replicate, if_pos (show isSign '\\' = true by decide)]
  split
  · rename_i hodd
    have hplain := signs_plain_le console ('[' :: (name ++ [']']))
    have hwhole : signs ('[' :: (name ++ [']'])) = signs name + 1 := by simp [signs_cons, isSign]
    have hodd : slashes % 2 = 1 := by simpa using hodd
    omega
  · rw [signs_nil]
    omega

theorem signs_shownOf_le (console : Console) (p : Piece) : signs (console.shownOf p) ≤ signs p.written := by
  cases p with
  | text cs => exact signs_plain_le console cs
  | mark slashes name => exact Nat.le_of_lt (signs_mark_lt slashes name)

/-! ## Tabs -/

theorem expandTabs_eq_self (h : '\t' ∉ cs) (column : Nat) : console.expandTabs column cs = cs := by
  induction cs generalizing column with
  | nil => rfl
  | cons c rest ih =>
    have hc : ¬ (c == '\t') = true := fun hc => h (by simp_all)
    have hrest : '\t' ∉ rest := fun hr => h (List.mem_cons_of_mem _ hr)
    rw [expandTabs, if_neg hc, ih hrest, ih hrest, ite_self]

theorem mem_expandTabs {c : Char} {column : Nat} (h : c ∈ console.expandTabs column cs) :
    c = ' ' ∨ c ∈ cs ∧ c ≠ '\t' := by
  fun_induction console.expandTabs column cs with
  | case1 => cases h
  | case2 column d rest hd width ih =>
    rcases List.mem_append.mp h with hblank | hrest
    · exact .inl (List.eq_of_mem_replicate hblank)
    · exact (ih hrest).imp id fun hmem => ⟨List.mem_cons_of_mem _ hmem.1, hmem.2⟩
  | case3 column d rest hd hn ih =>
    rcases List.mem_cons.mp h with rfl | hrest
    · exact .inr ⟨by simp, by simpa using hd⟩
    · exact (ih hrest).imp id fun hmem => ⟨List.mem_cons_of_mem _ hmem.1, hmem.2⟩
  | case4 column d rest hd hn ih =>
    rcases List.mem_cons.mp h with rfl | hrest
    · exact .inr ⟨by simp, by simpa using hd⟩
    · exact (ih hrest).imp id fun hmem => ⟨List.mem_cons_of_mem _ hmem.1, hmem.2⟩

theorem signs_expandTabs (console : Console) (column : Nat) (cs : List Char) :
    signs (console.expandTabs column cs) = signs cs := by
  fun_induction console.expandTabs column cs with
  | case1 => rfl
  | case2 column d rest hd width ih =>
    obtain rfl : d = '\t' := by simpa using hd
    rw [signs_append, ih, signs_replicate, signs_cons]
    simp [isSign]
  | case3 column d rest hd hn ih => rw [signs_cons, signs_cons, ih]
  | case4 column d rest hd hn ih => rw [signs_cons, signs_cons, ih]

/-- How many columns a text takes. -/
def columns (console : Console) (cs : List Char) : Nat := (cs.map console.width).sum

theorem expandTabs_append (h : ∀ c ∈ cs, c ≠ '\t' ∧ c ≠ '\n') (column : Nat) (rest : List Char) :
    console.expandTabs column (cs ++ rest) = cs ++ console.expandTabs (column + console.columns cs) rest := by
  induction cs generalizing column with
  | nil => rfl
  | cons c cs ih =>
    obtain ⟨⟨htab, hline⟩, hcs⟩ := List.forall_mem_cons.mp h
    rw [List.cons_append, expandTabs, if_neg (by simpa using htab), if_neg (by simpa using hline), ih hcs, columns, columns,
      List.map_cons, List.sum_cons, Nat.add_assoc, List.cons_append]

/-! ## Literal text -/

/-- A text in which nothing has a meaning of its own for the console. -/
structure Literal (console : Console) (s : String) : Prop where
  unmarked : ¬ Marked s.toList
  unescaped : ¬ Escapes s.toList
  unpictured : ∀ name, Part.code name ∈ parts none s.toList → console.picture? name = none
  printed : ∀ c ∈ s.toList, isControl c = false ∧ c ≠ '\t'

/-- The marks in a text that backslashes do not make text. -/
def marks (s : String) : List (List Char) := (pieces s).filterMap Piece.mark?

/-- What is shown of a text from a column on if its marks do not break it off. -/
def bare (console : Console) (column : Nat) (s : String) : List Char :=
  console.expandTabs column ((pieces s).flatMap console.shownOf)

theorem length_toList_lt (s : String) : s.toList.length < s.length + 1 := by
  rw [String.length_toList]
  exact Nat.lt_succ_self _

theorem pieces_unmarked {s : String} (h : ¬ Marked s.toList) : pieces s = [.text s.toList] :=
  piecesFrom_unmarked (length_toList_lt s) h

theorem marks_unmarked {s : String} (h : ¬ Marked s.toList) : marks s = [] := by
  rw [marks, pieces_unmarked h]
  rfl

theorem bare_unmarked {s : String} (h : ¬ Marked s.toList) (column : Nat) :
    console.bare column s = console.expandTabs column (console.plain s.toList) := by
  rw [bare, pieces_unmarked h, List.flatMap_singleton, shownOf]

theorem signs_bare_lt {s : String} (h : Marked s.toList) (console : Console) (column : Nat) :
    signs (console.bare column s) < signs s.toList := by
  obtain ⟨slashes, name, hmem⟩ : ∃ n name, Piece.mark n name ∈ pieces s := exists_mark (length_toList_lt s) h
  have hlt := signs_flatMap_lt (fun p _ => signs_shownOf_le console p) ⟨_, hmem, signs_mark_lt slashes name⟩
  rw [pieces, written_piecesFrom (length_toList_lt s)] at hlt
  rw [bare, signs_expandTabs]
  exact hlt

/-- A text that is shown as it stands is literal: no sign of it is missing, and tabs and
controls are not shown at all. -/
theorem literal_of_bare {column : Nat} {s : String} (h : console.bare column s = s.toList) : console.Literal s := by
  have hunmarked : ¬ Marked s.toList := by
    intro hm
    have hlt := signs_bare_lt hm console column
    rw [h] at hlt
    exact absurd hlt (Nat.lt_irrefl _)
  rw [bare_unmarked hunmarked] at h
  have hsigns : signs (console.plain s.toList) = signs s.toList := by
    rw [← signs_expandTabs console column, h]
  have hescapes : ¬ Escapes s.toList := by
    intro hescapes
    have hle := signs_plain_le_unescaped console s.toList
    have hlt := signs_unescaped_lt hescapes
    omega
  refine ⟨hunmarked, hescapes, fun name hname => ?_, fun c hc => ?_⟩
  · cases hp : console.picture? name with
    | none => rfl
    | some picture =>
      rw [← unescaped_eq_self hescapes] at hname
      have hlt := signs_plain_lt hname hp
      have hle := signs_unescaped_le s.toList
      omega
  · rw [← h] at hc
    rcases mem_expandTabs hc with rfl | ⟨hplain, htab⟩
    · decide
    · exact ⟨isControl_of_mem_plain hplain, htab⟩

theorem bare_of_literal {s : String} (h : console.Literal s) (column : Nat) : console.bare column s = s.toList := by
  have hplain := plain_eq_self h.unescaped h.unpictured fun c hc => (h.printed c hc).1
  rw [bare_unmarked h.unmarked, hplain]
  exact expandTabs_eq_self (fun htab => (h.printed _ htab).2 rfl) column

instance (s : String) : Decidable (console.Literal s) :=
  decidable_of_iff (console.bare 0 s = s.toList) ⟨literal_of_bare, fun h => bare_of_literal h 0⟩

/-! ## Closing marks -/

/-- A closing mark in a text for which no mark is open, or only an action whose parameters
cannot be read. -/
def Misplaced (console : Console) (s : String) : Prop :=
  ∃ before mark after opened name, marks s = before ++ mark :: after ∧
    before.foldlM console.follow [] = .ok opened ∧ mark.takeWhile (· != '=') = '/' :: name ∧
    ∀ o, opened.find? (console.closes name) = some o → o.parameters ≠ [] ∧ console.readable o.parameters = false

theorem follow_eq_error {opened : List Opened} {mark : List Char} {f : Fault} :
    console.follow opened mark = .error f ↔ f = .badMarkup ∧ ∃ name, mark.takeWhile (· != '=') = '/' :: name ∧
      ∀ o, opened.find? (console.closes name) = some o → o.parameters ≠ [] ∧ console.readable o.parameters = false := by
  unfold follow
  split
  · rename_i name hname
    constructor
    · intro h
      split at h
      · rename_i o ho
        split at h
        · cases h
        · rename_i hread
          cases h
          refine ⟨rfl, name, hname, fun o' ho' => ?_⟩
          cases ho.symm.trans ho'
          simpa using hread
      · rename_i hnone
        cases h
        exact ⟨rfl, name, hname, fun o ho => nomatch hnone.symm.trans ho⟩
    · intro h
      obtain ⟨rfl, name', hname', hall⟩ := h
      cases hname.symm.trans hname'
      split
      · rename_i o ho
        obtain ⟨hparameters, hread⟩ := hall o ho
        rw [if_neg (by simp [hparameters, hread])]
      · rfl
  · rename_i hopening
    constructor
    · intro h
      cases h
    · intro h
      obtain ⟨-, name, hname, -⟩ := h
      exact absurd hname (hopening name)

theorem foldlM_marks_eq_error {s : String} {f : Fault} :
    (marks s).foldlM console.follow [] = .error f ↔ f = .badMarkup ∧ console.Misplaced s := by
  rw [foldlM_eq_error]
  constructor
  · intro h
    obtain ⟨before, mark, after, opened, heq, hbefore, hmark⟩ := h
    obtain ⟨hf, name, hname, ho⟩ := follow_eq_error.mp hmark
    exact ⟨hf, before, mark, after, opened, name, heq, hbefore, hname, ho⟩
  · intro h
    obtain ⟨hf, before, mark, after, opened, name, heq, hbefore, hname, ho⟩ := h
    exact ⟨before, mark, after, opened, heq, hbefore, follow_eq_error.mpr ⟨hf, name, hname, ho⟩⟩

theorem not_misplaced_of_literal {s : String} (h : console.Literal s) : ¬ console.Misplaced s := by
  intro hmisplaced
  have hfails := foldlM_marks_eq_error.mpr ⟨rfl, hmisplaced⟩
  rw [marks_unmarked h.unmarked] at hfails
  cases hfails

theorem isOk_marks_iff {s : String} : ((marks s).foldlM console.follow []).isOk = false ↔ console.Misplaced s := by
  cases h : (marks s).foldlM console.follow [] with
  | error f => simp [(foldlM_marks_eq_error.mp h).2, Except.isOk, Except.toBool]
  | ok opened =>
    have hplaced : ¬ console.Misplaced s := by
      intro hm
      cases h.symm.trans (foldlM_marks_eq_error.mpr ⟨rfl, hm⟩)
    simp [hplaced, Except.isOk, Except.toBool]

instance (s : String) : Decidable (console.Misplaced s) := decidable_of_iff _ isOk_marks_iff

/-! ## Texts with a label -/

/-- The pieces of the label of an error, up to the blank after it. -/
def labelPieces : List Piece := [.text [], .mark 0 "red".toList, .text "Error:".toList, .mark 0 "/red".toList]

theorem pieces_labelled (s : String) : pieces ("[red]Error:[/red] " ++ s) = labelPieces ++ prepended [' '] (pieces s) := by
  have hlength : ("[red]Error:[/red] " ++ s).length + 1 = s.length + 10 + 9 := by
    have hlabel : "[red]Error:[/red] ".length = 18 := by decide
    rw [String.length_append, hlabel]
    omega
  have hrest : piecesFrom (s.length + 10) [' '] 0 s.toList = prepended [' '] (pieces s) :=
    piecesFrom_held [] [' '] (k := s.length + 9) (length_toList_lt s) (by rw [String.length_toList]; omega)
  rw [pieces, hlength, String.toList_append, ← hrest]
  -- The label is read sign by sign; the blank after it is held when the text begins.
  rfl

theorem exists_piecesFrom (h : cs.length < fuel) : ∃ text ps, piecesFrom fuel held slashes cs = .text text :: ps := by
  fun_induction piecesFrom fuel held slashes cs with
  | case1 => omega
  | case2 => exact ⟨_, _, rfl⟩
  | case3 fuel held slashes c rest hc ih => exact ih (by simpa using h)
  | case4 => exact ⟨_, _, rfl⟩
  | case5 fuel held slashes c rest hc hm ih => exact ih (by simpa using h)

theorem follow_label : ["red".toList, "/red".toList].foldlM console.follow [] = .ok [] := by
  have hcloses : console.closes ['r', 'e', 'd'] ⟨console.style ['r', 'e', 'd'], []⟩ = true := by
    have htrim : trimmed ['r', 'e', 'd'] = ['r', 'e', 'd'] := by decide
    rw [closes, htrim]
    simp
  have hclosed : console.follow [⟨console.style ['r', 'e', 'd'], []⟩] "/red".toList = .ok [] := by
    simp [follow, hcloses]
  have hopened : console.follow [] "red".toList = .ok [⟨console.style ['r', 'e', 'd'], []⟩] := rfl
  rw [List.foldlM_cons, hopened, ok_bind, List.foldlM_cons, hclosed]
  rfl

/-- A text after the label of an error is shown as without it, but for the columns of tabs. -/
theorem shown_labelled (s : String) : console.shown ("[red]Error:[/red] " ++ s) =
    ((marks s).foldlM console.follow []).map fun _ =>
      "Error: " ++ String.ofList (console.bare (console.columns "Error: ".toList) s) := by
  obtain ⟨text, ps, hps⟩ : ∃ text ps, pieces s = .text text :: ps := exists_piecesFrom (length_toList_lt s)
  have hmarks : (labelPieces ++ prepended [' '] (pieces s)).filterMap Piece.mark? =
      ["red".toList, "/red".toList] ++ marks s := by
    rw [marks, hps]
    rfl
  have hshown : (labelPieces ++ prepended [' '] (pieces s)).flatMap console.shownOf =
      "Error: ".toList ++ (pieces s).flatMap console.shownOf := by
    rw [hps]
    rfl
  rw [shown, pieces_labelled, textOf_eq, hmarks, hshown, List.foldlM_append, follow_label, ok_bind]
  cases (marks s).foldlM console.follow [] with
  | error f => rfl
  | ok opened =>
    rw [map_ok, map_ok, ok_bind, expandTabs_append (by simp) 0, Nat.zero_add, String.ofList_append, String.ofList_toList]
    rfl

end Cascade.Console
