import Cascade.Proofs.Yaml.Scalars

/-! # Splitting a text comes to an end

Every step of the splitting either gives the token that ends a text or leaves fewer
characters. So a text of some length is split in at most as many steps and one more,
and what goes wrong in it is never that it has no end. -/
namespace Cascade.Yaml

namespace Lexer

open Cursor (Left)

theorem ends_fail {α : Type} {P : α → Prop} (problem : String) (c : Cursor) : Ends (fail problem c) P :=
  .malformed problem c.mark

/-! ## Pending keys and indentation -/

section
variable (s : Lexer)

theorem ends_dropStale : Ends s.dropStale fun t => t.cursor = s.cursor ∧ t.tokens = s.tokens := by
  unfold dropStale
  dsimp only
  split
  · exact ends_fail _ _
  · exact ⟨rfl, rfl⟩

theorem ends_removeKey : Ends s.removeKey fun t => t.cursor = s.cursor ∧ t.flow = s.flow := by
  unfold removeKey
  split
  · exact ends_fail _ _
  · exact ⟨rfl, rfl⟩

theorem ends_saveKey : Ends s.saveKey fun t => t.cursor = s.cursor ∧ t.flow = s.flow := by
  unfold saveKey
  split
  · exact s.ends_removeKey.bind fun t ht => ht
  · exact ⟨rfl, rfl⟩

theorem cursor_unwind (column : Int) : (s.unwind column).cursor = s.cursor := by
  unfold unwind
  split <;> rfl

theorem cursor_openBlock (kind : TokenKind) : (s.openBlock kind).cursor = s.cursor := by
  unfold openBlock deepen
  split
  · rename_i t ht
    split at ht <;> cases ht
    rfl
  · rfl

/-! ## Between tokens -/

theorem length_gap (inFlow : Bool) (cs : List Char) (m : Mark) (inComment allowed : Bool) :
    (gap inFlow cs m inComment allowed).1.rest.length ≤ cs.length := by
  induction cs generalizing m inComment allowed with
  | nil => exact Nat.le_refl _
  | cons ch rest ih =>
    unfold gap
    split
    · exact Nat.le_trans (ih _ _ _) (Nat.le_succ _)
    split
    · exact Nat.le_trans (ih _ _ _) (Nat.le_succ _)
    split
    · exact Nat.le_trans (ih _ _ _) (Nat.le_succ _)
    split
    · exact Nat.le_trans (ih _ _ _) (Nat.le_succ _)
    · exact Nat.le_refl _

theorem length_skipGap : s.skipGap.cursor.rest.length ≤ s.cursor.rest.length := by
  have hmark : (if s.mark.index == 0 && s.cursor.head == '\uFEFF' then s.cursor.step
      else s.cursor).rest.length ≤ s.cursor.rest.length := by
    split
    · rw [Cursor.step_length]
      omega
    · exact Nat.le_refl _
  exact Nat.le_trans (length_gap _ _ _ _ _) hmark

end

/-! ## Tokens

A step that gives a token leaves fewer characters, where there are any. -/

/-- A step from a state that leaves fewer characters. -/
def Advances (s : Lexer) (x : Except Refusal Lexer) : Prop :=
  Ends x fun t => t.cursor.rest.length < s.cursor.rest.length

/-- A token of its own, at the place of the step. -/
theorem length_indicator {s t : Lexer} (hs : s.cursor.rest ≠ []) (ht : t.cursor = s.cursor) (kind : TokenKind)
    {width : Nat} (hw : 0 < width) : (t.indicator kind width).cursor.rest.length < s.cursor.rest.length := by
  have hpos := List.length_pos_iff.mpr hs
  show (t.cursor.skip width).rest.length < _
  rw [Cursor.skip_rest, List.length_drop, ht]
  omega

section
variable {s : Lexer} (hs : s.cursor.rest ≠ [])
include hs

/-- A token of its own for which a pending place is dropped. -/
theorem advances_removeKey (t : Lexer) (ht : t.cursor = s.cursor) (kind : TokenKind) :
    Advances s (do return (← t.removeKey).indicator kind 1) :=
  t.ends_removeKey.bind fun _ hu => length_indicator hs (hu.1.trans ht) kind (by decide)

theorem advances_documentMark (kind : TokenKind) : Advances s (s.documentMark kind) :=
  (ends_removeKey _).bind fun _ ht => length_indicator hs (ht.1.trans (s.cursor_unwind _)) kind (by decide)

theorem advances_flowStart (kind : TokenKind) : Advances s (s.flowStart kind) :=
  s.ends_saveKey.bind fun _ ht => length_indicator hs ht.1 kind (by decide)

theorem advances_flowEnd (kind : TokenKind) : Advances s (s.flowEnd kind) :=
  s.ends_removeKey.bind fun _ ht => length_indicator hs ht.1 kind (by decide)

theorem advances_flowEntry : Advances s s.flowEntry :=
  advances_removeKey hs { s with keyAllowed := true } rfl _

theorem advances_blockEntry : Advances s s.blockEntry := by
  unfold blockEntry
  dsimp only
  split
  · exact advances_removeKey hs { s with keyAllowed := true } rfl _
  split
  · exact advances_removeKey hs { s.openBlock .blockSequenceStart with keyAllowed := true }
      (s.cursor_openBlock _) _
  · exact ends_fail _ _

theorem advances_explicitKey : Advances s s.explicitKey := by
  unfold explicitKey
  dsimp only
  split
  · exact advances_removeKey hs { s with keyAllowed := s.flow == 0 } rfl _
  split
  · exact advances_removeKey hs { s.openBlock .blockMappingStart with
      keyAllowed := (s.openBlock .blockMappingStart).flow == 0 } (s.cursor_openBlock _) _
  · exact ends_fail _ _

theorem advances_colon : Advances s s.colon := by
  unfold colon
  split
  · rename_i k _
    refine length_indicator hs ?_ _ Nat.zero_lt_one
    split
    · rfl
    · unfold deepen
      split
      · rename_i ht
        split at ht <;> cases ht
        rfl
      · rfl
  · dsimp only
    split
    · exact advances_removeKey hs { s with keyAllowed := s.flow == 0 } rfl _
    split
    · exact advances_removeKey hs { s.openBlock .blockMappingStart with
        keyAllowed := (s.openBlock .blockMappingStart).flow == 0 } (s.cursor_openBlock _) _
    · exact ends_fail _ _

/-- What is read behind the mark of a token leaves fewer characters. -/
theorem lt_of_step {t : Lexer} (ht : t.cursor = s.cursor) {n : Nat} (hn : n ≤ t.cursor.rest.length - 1) :
    n < s.cursor.rest.length := by
  have hpos := List.length_pos_iff.mpr hs
  rw [ht] at hn
  omega

theorem advances_reference (kind : String → TokenKind) : Advances s (s.reference kind) := by
  refine s.ends_saveKey.bind fun t ht => ?_
  have hname := t.cursor.step.length_takeWhile isNameChar
  rw [Cursor.step_length] at hname
  dsimp only
  split
  · exact ends_fail _ _
  split
  · exact lt_of_step hs ht.1 hname
  · exact ends_fail _ _

end

/-! ## Tags and directives -/

theorem ends_uriByte (c : Cursor) : Ends (uriByte c) (Left c.rest.length) := by
  unfold uriByte
  split
  · show (c.skip 2).rest.length ≤ _
    rw [Cursor.skip_rest, List.length_drop]
    omega
  · exact ends_fail _ _

theorem ends_uriEscapes (fuel : Nat) (c : Cursor) (done : List UInt8) :
    Ends (uriEscapes fuel c done) (Left c.rest.length) := by
  induction fuel generalizing c done with
  | zero => exact Nat.le_refl _
  | succ fuel ih =>
    unfold uriEscapes
    split
    · refine (ends_uriByte c.step).bind fun read hread => (ih _ _).mono fun _ hlater => ?_
      have hstep := c.step_length
      exact Nat.le_trans hlater (Nat.le_trans hread (by omega))
    · exact Nat.le_refl _

theorem ends_uriLoop (fuel : Nat) (c : Cursor) (done : List Char) :
    Ends (uriLoop fuel c done) (Left c.rest.length) := by
  induction fuel generalizing c done with
  | zero => exact Nat.le_refl _
  | succ fuel ih =>
    unfold uriLoop
    split
    · refine (ends_uriEscapes _ _ _).bind fun read hread => ?_
      dsimp only
      split
      · exact (ih _ _).mono fun _ hlater => Nat.le_trans hlater hread
      · exact ends_fail _ _
    · dsimp only
      split
      · exact Nat.le_refl _
      · exact (ih _ _).mono fun _ hlater => Nat.le_trans hlater (c.length_takeWhile isUriChar)

theorem ends_uri (c : Cursor) : Ends (uri c) (Left c.rest.length) := by
  refine (ends_uriLoop _ _ _).bind fun read hread => ?_
  dsimp only
  split
  · exact ends_fail _ _
  · exact hread

theorem ends_handle (c : Cursor) : Ends (handle c) (Left (c.rest.length - 1)) := by
  have hstep := c.step_length
  have hname := c.step.length_takeWhile isNameChar
  unfold handle
  split
  · exact ends_fail _ _
  split
  · exact Nat.le_of_eq hstep
  · dsimp only
    split
    · show (Cursor.step _).rest.length ≤ _
      rw [Cursor.step_length]
      omega
    · exact ends_fail _ _

theorem ends_tagParts (c : Cursor) : Ends (tagParts c) fun read => read.2.2.rest.length ≤ c.rest.length - 1 := by
  have hstep := c.step_length
  -- a suffix that begins behind the mark of the tag
  have hsuffix : ∀ (h : String) (next : Cursor), next.rest.length ≤ c.rest.length - 1 →
      Ends (do
        let read ← uri next
        return (some h, read.1, read.2)) fun read => read.2.2.rest.length ≤ c.rest.length - 1 :=
    fun h next hnext => (ends_uri next).bind fun read hread => Nat.le_trans hread hnext
  unfold tagParts
  dsimp only
  split
  · refine (ends_uri _).bind fun read hread => ?_
    rw [Cursor.skip_rest, List.length_drop] at hread
    split
    · show (Cursor.step _).rest.length ≤ _
      rw [Cursor.step_length]
      omega
    · exact ends_fail _ _
  split
  · exact Nat.le_of_eq hstep
  split
  · exact (ends_handle c).bind fun read hread => hsuffix _ _ hread
  · exact hsuffix _ _ (Nat.le_of_eq hstep)

theorem advances_tag {s : Lexer} (hs : s.cursor.rest ≠ []) : Advances s s.tag := by
  refine s.ends_saveKey.bind fun t ht => (ends_tagParts t.cursor).bind fun read hread => ?_
  dsimp only
  split
  · exact lt_of_step hs ht.1 hread
  · exact ends_fail _ _

theorem ends_number (c : Cursor) : Ends (number c) (Left c.rest.length) := by
  unfold number
  dsimp only
  split
  · exact ends_fail _ _
  · exact c.length_takeWhile Char.isDigit

theorem length_skipBlanks (c : Cursor) : (skipBlanks c).rest.length ≤ c.rest.length := c.length_dropWhile (· == ' ')

theorem ends_version (c : Cursor) : Ends (version c) (Left c.rest.length) := by
  refine (ends_number _).bind fun major hmajor => ?_
  dsimp only
  split
  · exact ends_fail _ _
  refine (ends_number _).bind fun minor hminor => ?_
  have hblanks := length_skipBlanks c
  have hstep := major.2.step_length
  split
  · exact Nat.le_trans hminor (by omega)
  · exact ends_fail _ _

theorem ends_tagDefinition (c : Cursor) : Ends (tagDefinition c) (Left c.rest.length) := by
  refine (ends_handle _).bind fun read hread => ?_
  dsimp only
  split
  · exact ends_fail _ _
  refine (ends_uri _).bind fun replacement hreplacement => ?_
  have hblanks := length_skipBlanks c
  have hagain := length_skipBlanks read.2
  split
  · exact Nat.le_trans hreplacement (by omega)
  · exact ends_fail _ _

theorem advances_directive {s : Lexer} (hs : s.cursor.rest ≠ []) : Advances s s.directive := by
  refine (ends_removeKey _).bind fun t ht => ?_
  replace ht := ht.1.trans (s.cursor_unwind _)
  have hname := t.cursor.step.length_takeWhile isNameChar
  rw [Cursor.step_length] at hname
  have finish : ∀ (kind : TokenKind) (next : Cursor), next.rest.length ≤ t.cursor.rest.length - 1 →
      Ends (do
        let cursor ← Scalar.restOfLine next
        return { t with keyAllowed := false, cursor }.push kind t.mark next.mark)
        fun u => u.cursor.rest.length < s.cursor.rest.length := fun kind next hnext =>
    (Scalar.ends_restOfLine next).bind fun cursor hcursor => lt_of_step hs ht (Nat.le_trans hcursor hnext)
  dsimp only
  split
  · exact ends_fail _ _
  split
  · exact (ends_version _).bind fun read hread => finish _ _ (Nat.le_trans hread hname)
  split
  · exact (ends_tagDefinition _).bind fun read hread => finish _ _ (Nat.le_trans hread hname)
  · exact finish _ _ (Nat.le_trans (Cursor.length_dropWhile _ _) hname)

/-! ## Scalars -/

/-- Where a plain scalar may begin it goes on, and is no comment. -/
theorem goesOn_of_plainStarts {s : Lexer} {ch : Char} {rest : List Char} (hs : s.cursor.rest = ch :: rest)
    (h : s.plainStarts = true) :
    s.cursor.head ≠ '#' ∧ Scalar.plainGoesOn (s.flow != 0) s.cursor.rest = true := by
  have hhead : s.cursor.head = ch := by rw [Cursor.head, hs, List.headD_cons]
  have hnext : s.cursor.peek 1 = rest.headD '\x00' := by
    rw [Cursor.peek, hs]
    cases rest <;> rfl
  unfold plainStarts at h
  simp only [hhead, hnext, Bool.or_eq_true, Bool.and_eq_true] at h
  rw [hhead, hs]
  unfold Scalar.plainGoesOn
  rcases h with h | ⟨hword, h | ⟨hflow, h | h⟩⟩
  · simp at h
    simp [h]
  · obtain rfl := beq_iff_eq.mp h
    simp [show isWordEnd '-' = false by decide]
  · obtain rfl := beq_iff_eq.mp h
    simp [show isWordEnd '?' = false by decide, beq_iff_eq.mp hflow]
  · obtain rfl := beq_iff_eq.mp h
    rw [Bool.not_eq_true', List.headD_eq_head?_getD] at hword
    simp [show isWordEnd ':' = false by decide, hword, beq_iff_eq.mp hflow]

section
variable {s : Lexer} (hs : s.cursor.rest ≠ [])
include hs

theorem advances_plain (h : s.plainStarts = true) : Advances s s.plain := by
  obtain ⟨ch, rest, hrest⟩ := List.exists_cons_of_ne_nil hs
  obtain ⟨hhead, hon⟩ := goesOn_of_plainStarts hrest h
  refine s.ends_saveKey.bind fun t ht => ?_
  rw [← ht.1, ← ht.2] at hon
  rw [← ht.1] at hhead
  have hlt := Scalar.length_plain hhead hon (t.indent + 1).toNat false
  exact ht.1 ▸ hlt

theorem advances_quoted (double : Bool) : Advances s (s.quoted double) :=
  s.ends_saveKey.bind fun t ht => (Scalar.ends_quoted double t.cursor).bind fun _ hread => lt_of_step hs ht.1 hread

theorem advances_block (fold : Bool) : Advances s (s.block fold) :=
  (ends_removeKey { s with keyAllowed := true }).bind fun t ht =>
    (Scalar.ends_block fold t.indent t.cursor).bind fun _ hread => lt_of_step hs ht.1 hread

end

/-! ## The whole text -/

theorem ends_streamEnd (s : Lexer) : Ends s.streamEnd fun t => t.ended = true := by
  refine (ends_removeKey _).bind fun t _ => ?_
  show ended (push _ .streamEnd _ _) = true
  simp [ended, push]

/-- A step ends the text, or leaves fewer characters. -/
theorem ends_next (s : Lexer) :
    Ends s.next fun t => t.ended = true ∨ t.cursor.rest.length < s.cursor.rest.length := by
  refine s.skipGap.ends_dropStale.bind fun t ht => ?_
  have hgap := s.length_skipGap
  have hcursor : (t.unwind t.cursor.column).cursor = s.skipGap.cursor := (t.cursor_unwind _).trans ht.1
  generalize t.unwind t.cursor.column = u at hcursor
  have of_advances : ∀ x, Advances u x →
      Ends x fun t => t.ended = true ∨ t.cursor.rest.length < s.cursor.rest.length := by
    intro x hx
    refine hx.mono fun v hv => .inr ?_
    rw [hcursor] at hv
    exact Nat.lt_of_lt_of_le hv hgap
  dsimp only
  split
  · exact u.ends_streamEnd.mono fun v hv => .inl hv
  · rename_i hrest
    have hu : u.cursor.rest ≠ [] := by simp [hrest]
    refine .ite (fun _ => of_advances _ (advances_directive hu)) fun _ => ?_
    refine .ite (fun _ => of_advances _ (advances_documentMark hu _)) fun _ => ?_
    refine .ite (fun _ => of_advances _ (advances_flowStart hu _)) fun _ => ?_
    refine .ite (fun _ => of_advances _ (advances_flowStart hu _)) fun _ => ?_
    refine .ite (fun _ => of_advances _ (advances_flowEnd hu _)) fun _ => ?_
    refine .ite (fun _ => of_advances _ (advances_flowEnd hu _)) fun _ => ?_
    refine .ite (fun _ => of_advances _ (advances_flowEntry hu)) fun _ => ?_
    refine .ite (fun _ => of_advances _ (advances_blockEntry hu)) fun _ => ?_
    refine .ite (fun _ => of_advances _ (advances_explicitKey hu)) fun _ => ?_
    refine .ite (fun _ => of_advances _ (advances_colon hu)) fun _ => ?_
    refine .ite (fun _ => of_advances _ (advances_reference hu _)) fun _ => ?_
    refine .ite (fun _ => of_advances _ (advances_reference hu _)) fun _ => ?_
    refine .ite (fun _ => of_advances _ (advances_tag hu)) fun _ => ?_
    refine .ite (fun _ => of_advances _ (advances_block hu _)) fun _ => ?_
    refine .ite (fun _ => of_advances _ (advances_block hu _)) fun _ => ?_
    refine .ite (fun _ => of_advances _ (advances_quoted hu _)) fun _ => ?_
    refine .ite (fun _ => of_advances _ (advances_quoted hu _)) fun _ => ?_
    exact .ite (fun hplain => of_advances _ (advances_plain hu hplain)) fun _ => ends_fail _ _

/-- The steps that a text is split into tokens with are enough: it stops at the end of the
text or for a reason. -/
theorem isReason_run {fuel : Nat} {s : Lexer} (hf : s.cursor.rest.length < fuel) {r : Refusal}
    (hr : (run fuel s).failure = some r) : r.IsReason := by
  induction fuel generalizing s with
  | zero => omega
  | succ fuel ih =>
    have hstep : Ends (s.next >>= dropStale) fun t => t.ended = true ∨ t.cursor.rest.length < s.cursor.rest.length := by
      refine s.ends_next.bind fun t ht => t.ends_dropStale.mono fun u hu => ?_
      rwa [ended, hu.1, hu.2]
    unfold run at hr
    split at hr
    · rename_i he
      rw [he] at hstep
      exact Option.some.inj hr ▸ hstep
    · rename_i t ht
      rw [ht] at hstep
      split at hr
      · cases hr
      · rename_i hnot
        exact ih (Nat.lt_of_lt_of_le (hstep.resolve_left hnot) (Nat.le_of_lt_succ hf)) hr

end Lexer

theorem Tokens.isReason_ofText {cs : List Char} {r : Refusal} (hr : (Tokens.ofText cs).failure = some r) :
    r.IsReason := by
  unfold Tokens.ofText at hr
  split at hr
  · exact fun f hf => nomatch (Option.some.inj hr).trans hf
  · exact Lexer.isReason_run (Nat.lt_add_of_pos_right Nat.zero_lt_two) hr

end Cascade.Yaml
