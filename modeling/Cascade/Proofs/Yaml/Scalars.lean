import Cascade.Proofs.Result
import Cascade.Yaml.Token.Lexer

/-! # Scalars come to an end

Whatever is read of a text leaves no more of it than there was. The words of a
scalar leave less, and what goes wrong in one is never that it has no end. -/
namespace Cascade.Yaml

/-- What a scalar fails with when its type does not take its text. -/
def scalarFaults : List Fault := [.badValue, .noItem, .noKey, .noMember]

/-- A refusal that gives a problem, or that is the fault of a scalar. -/
def Refusal.IsReason (r : Refusal) : Prop := ∀ f, r = .fault f → f ∈ scalarFaults

/-- What is read ends, with a result of which something is known or with a reason. -/
def Ends {α : Type} (x : Except Refusal α) (Q : α → Prop) : Prop :=
  match x with
  | .ok a => Q a
  | .error e => e.IsReason

namespace Ends

variable {α β : Type} {x : Except Refusal α} {P : α → Prop} {Q : β → Prop}

theorem bind {f : α → Except Refusal β} (hx : Ends x P) (hf : ∀ a, P a → Ends (f a) Q) : Ends (x >>= f) Q := by
  cases x with
  | ok a => exact hf a hx
  | error e => exact hx

theorem mono {P' : α → Prop} (hx : Ends x P) (h : ∀ a, P a → P' a) : Ends x P' := by
  cases x with
  | ok a => exact h a hx
  | error e => exact hx

theorem ite {c : Prop} [Decidable c] {y : Except Refusal α} (hx : c → Ends x P) (hy : ¬ c → Ends y P) :
    Ends (if c then x else y) P := by
  split
  · exact hx ‹_›
  · exact hy ‹_›

theorem malformed (problem : String) (m : Mark) : Ends (.error (.malformed problem m)) P := fun _ h => nomatch h

theorem fault {f : Fault} (h : f ∈ scalarFaults) : Ends (.error (.fault f)) P := by
  rintro _ ⟨⟩
  exact h

end Ends

/-! ## Places -/

namespace Cursor

/-- What is read from one place on ends at another that leaves no more than a number of
characters. -/
abbrev Left {α : Type} (n : Nat) (read : α × Cursor) : Prop := read.2.rest.length ≤ n

theorem step_rest (c : Cursor) : c.step.rest = c.rest.tail := by
  unfold step
  split <;> simp [*]

theorem step_length (c : Cursor) : c.step.rest.length = c.rest.length - 1 := by rw [step_rest, List.length_tail]

theorem skip_rest (n : Nat) (c : Cursor) : (c.skip n).rest = c.rest.drop n := by
  induction n generalizing c with
  | zero => rfl
  | succ n ih => rw [skip, ih, step_rest, List.drop_tail]

theorem takeOver_rest (p : Char → Bool) (cs : List Char) (m : Mark) : (takeOver p cs m).2.rest = cs.dropWhile p := by
  induction cs generalizing m with
  | nil => rfl
  | cons ch rest ih =>
    by_cases h : p ch = true
    · simp [takeOver, h, ih]
    · simp [takeOver, h]

theorem length_takeWhile (c : Cursor) (p : Char → Bool) : (c.takeWhile p).2.rest.length ≤ c.rest.length := by
  rw [takeWhile, takeOver_rest]
  exact (List.dropWhile_sublist p).length_le

theorem length_dropWhile (c : Cursor) (p : Char → Bool) : (c.dropWhile p).rest.length ≤ c.rest.length :=
  c.length_takeWhile p

theorem length_lineBreak? {c next : Cursor} {b : Char} (h : c.lineBreak? = some (b, next)) :
    next.rest.length < c.rest.length := by
  unfold lineBreak? at h
  split at h
  · rename_i hr
    cases h
    rw [step_length, step_length, hr, List.length_cons, List.length_cons]
    omega
  · rename_i hr
    split at h
    · cases h
      simp [step_length, hr]
    · split at h <;> cases h
      simp [step_length, hr]
  · cases h

end Cursor

namespace Scalar

open Cursor (Left)

theorem ends_fail {α : Type} {P : α → Prop} (problem : String) (c : Cursor) : Ends (fail problem c) P :=
  .malformed problem c.mark

/-! ## Plain scalars -/

theorem length_plainBreaks {fuel : Nat} {c next : Cursor} {done others : List Char}
    (h : plainBreaks fuel c done = some (others, next)) : next.rest.length ≤ c.rest.length := by
  induction fuel generalizing c done with
  | zero =>
    cases h
    exact Nat.le_refl _
  | succ fuel ih =>
    unfold plainBreaks at h
    split at h
    · have hle := ih h
      rw [Cursor.step_length] at hle
      omega
    split at h
    · cases h
      exact Nat.le_refl _
    · rename_i hbreak
      have hlt := Cursor.length_lineBreak? hbreak
      split at h
      · cases h
      · exact Nat.le_trans (ih h) (Nat.le_of_lt hlt)

theorem length_plainGap (c : Cursor) : (plainGap c).2.1.rest.length ≤ c.rest.length := by
  have hblanks := c.length_takeWhile (· == ' ')
  unfold plainGap
  dsimp only
  split
  · exact hblanks
  · rename_i hbreak
    have hlt := Cursor.length_lineBreak? hbreak
    split
    · exact Nat.le_trans (Nat.le_of_lt hlt) hblanks
    · split
      · rename_i hbreaks
        have hle := length_plainBreaks hbreaks
        dsimp only
        omega
      · exact Nat.le_trans (Nat.le_of_lt hlt) hblanks

theorem length_plainWord (inFlow : Bool) (cs : List Char) (m : Mark) :
    (plainWord inFlow cs m).1.length + (plainWord inFlow cs m).2.rest.length = cs.length := by
  induction cs generalizing m with
  | nil => rfl
  | cons ch rest ih =>
    unfold plainWord
    split
    · have := ih (m.after ch rest)
      simp only [List.length_cons]
      omega
    · simp

theorem length_plainLoop (inFlow : Bool) (indent fuel : Nat) (c : Cursor) (text gap : List Char) (finish : Mark)
    (allowed : Bool) : (plainLoop inFlow indent fuel c text gap finish allowed).next.rest.length ≤ c.rest.length := by
  induction fuel generalizing c text gap finish allowed with
  | zero => exact Nat.le_refl _
  | succ fuel ih =>
    unfold plainLoop
    split
    · exact Nat.le_refl _
    have hword := length_plainWord inFlow c.rest c.mark
    dsimp only
    split
    · exact Nat.le_refl _
    have hgap := length_plainGap (plainWord inFlow c.rest c.mark).2
    split
    · exact Nat.le_trans hgap (by omega)
    · exact Nat.le_trans (ih _ _ _ _ _) (Nat.le_trans hgap (by omega))

/-- A plain scalar that may begin has at least one character. -/
theorem length_plain {inFlow : Bool} {c : Cursor} (hhead : c.head ≠ '#') (hon : plainGoesOn inFlow c.rest = true)
    (indent : Nat) (allowed : Bool) : (plain inFlow indent c allowed).next.rest.length < c.rest.length := by
  have hword := length_plainWord inFlow c.rest c.mark
  have hne : (plainWord inFlow c.rest c.mark).1 ≠ [] := by
    cases hrest : c.rest with
    | nil =>
      rw [hrest] at hon
      cases hon
    | cons ch rest =>
      rw [hrest] at hon
      simp [plainWord, hon]
  have hpos := List.length_pos_iff.mpr hne
  unfold plain plainLoop
  rw [if_neg (by simpa using hhead)]
  dsimp only
  rw [if_neg (by simpa using hne)]
  have hgap := length_plainGap (plainWord inFlow c.rest c.mark).2
  split
  · exact Nat.lt_of_le_of_lt hgap (by omega)
  · exact Nat.lt_of_le_of_lt (length_plainLoop _ _ _ _ _ _ _ _) (Nat.lt_of_le_of_lt hgap (by omega))

/-! ## Quoted scalars -/

theorem ends_quotedBreaks (fuel : Nat) (c : Cursor) (done : List Char) :
    Ends (quotedBreaks fuel c done) (Left c.rest.length) := by
  induction fuel generalizing c done with
  | zero => exact Nat.le_refl _
  | succ fuel ih =>
    unfold quotedBreaks
    split
    · exact ends_fail _ _
    have hblanks := c.length_dropWhile fun ch => ch == ' ' || ch == '\t'
    dsimp only
    split
    · rename_i hbreak
      have hlt := Cursor.length_lineBreak? hbreak
      refine (ih _ _).mono fun read hread => ?_
      exact Nat.le_trans hread (by omega)
    · exact hblanks

theorem ends_codePoint (n : Nat) : Ends (codePoint n) fun _ => True := by
  unfold codePoint
  split
  · exact .fault (by decide)
  · split <;> trivial

theorem ends_escaped (c : Cursor) : Ends (escaped c) (Left c.rest.length) := by
  unfold escaped
  split
  · show c.step.rest.length ≤ _
    rw [Cursor.step_length]
    omega
  split
  · dsimp only
    split
    · refine (ends_codePoint _).bind fun _ _ => ?_
      show (Cursor.skip _ _).rest.length ≤ _
      rw [Cursor.skip_rest, List.length_drop, Cursor.step_length]
      omega
    · exact ends_fail _ _
  · split
    · rename_i hbreak
      have hlt := Cursor.length_lineBreak? hbreak
      exact (ends_quotedBreaks _ _ _).mono fun read hread => Nat.le_trans hread (Nat.le_of_lt hlt)
    · exact ends_fail _ _

theorem ends_quotedLoop (double : Bool) (fuel : Nat) (c : Cursor) (done : List Char) :
    Ends (quotedLoop double fuel c done) (Left c.rest.length) := by
  induction fuel generalizing c done with
  | zero => exact ends_fail _ _
  | succ fuel ih =>
    have later : ∀ (next : Cursor) (done : List Char), next.rest.length ≤ c.rest.length →
        Ends (quotedLoop double fuel next done) (Left c.rest.length) := fun next done hle =>
      (ih next done).mono fun read hread => Nat.le_trans hread hle
    have hstep : c.step.rest.length ≤ c.rest.length := by
      rw [Cursor.step_length]
      omega
    have hblanks := c.length_takeWhile fun ch => ch == ' ' || ch == '\t'
    unfold quotedLoop
    generalize (if double then '"' else '\'') = closing
    split
    · exact ends_fail _ _
    split
    · refine later _ _ ?_
      rw [Cursor.step_length]
      omega
    split
    · exact hstep
    split
    · have hescaped := ends_escaped c.step
      split
      · rename_i he
        rw [he] at hescaped
        exact hescaped
      · rename_i he
        rw [he] at hescaped
        exact later _ _ (Nat.le_trans hescaped hstep)
    split
    · dsimp only
      split
      · rename_i b next hbreak
        have hlt := Cursor.length_lineBreak? hbreak
        have hbreaks := ends_quotedBreaks (next.rest.length + 1) next []
        split
        · rename_i he
          rw [he] at hbreaks
          exact hbreaks
        · rename_i he
          rw [he] at hbreaks
          exact later _ _ (Nat.le_trans hbreaks (by omega))
      · split
        · exact ends_fail _ _
        · exact later _ _ hblanks
    · exact later _ _ hstep

theorem ends_quoted (double : Bool) (c : Cursor) : Ends (quoted double c) (Left (c.rest.length - 1)) := by
  rw [← Cursor.step_length]
  exact ends_quotedLoop _ _ _ _

/-! ## Block scalars -/

theorem ends_increment (c : Cursor) : Ends (increment c) (Left c.rest.length) := by
  unfold increment
  split
  · split
    · exact ends_fail _ _
    · show c.step.rest.length ≤ _
      rw [Cursor.step_length]
      omega
  · exact Nat.le_refl _

theorem ends_blockHeader (c : Cursor) : Ends (blockHeader c) (Left c.rest.length) := by
  have hstep : ∀ next : Cursor, next.step.rest.length ≤ next.rest.length := by
    intro next
    rw [Cursor.step_length]
    omega
  have finish : ∀ (chomp : Chomping) (inc : Option Nat) (next : Cursor), next.rest.length ≤ c.rest.length →
      Ends (if next.head == ' ' || isLineEnd next.head then (return ((chomp, inc), next))
        else fail "unexpected text after a block scalar's indicators" next) (Left c.rest.length) := by
    intro chomp inc next hnext
    split
    · exact hnext
    · exact ends_fail _ _
  unfold blockHeader
  dsimp only
  split
  · refine (ends_increment _).bind fun read hread => ?_
    exact finish _ _ _ (Nat.le_trans hread (hstep c))
  · refine (ends_increment c).bind fun read hread => ?_
    obtain ⟨inc, next⟩ := read
    dsimp only
    split
    · exact finish _ _ _ (Nat.le_trans (hstep next) hread)
    · exact finish _ _ _ hread

theorem ends_restOfLine (c : Cursor) : Ends (restOfLine c) fun next => next.rest.length ≤ c.rest.length := by
  have hblanks := c.length_dropWhile (· == ' ')
  unfold restOfLine
  dsimp only
  generalize c.dropWhile (· == ' ') = blank at hblanks
  have hcomment : (if blank.head == '#' then blank.dropWhile (!isLineEnd ·) else blank).rest.length ≤
      c.rest.length := by
    split
    · exact Nat.le_trans (Cursor.length_dropWhile _ _) hblanks
    · exact hblanks
  generalize (if blank.head == '#' then blank.dropWhile (!isLineEnd ·) else blank) = last at hcomment
  split
  · rename_i hbreak
    exact Nat.le_trans (Nat.le_of_lt (Cursor.length_lineBreak? hbreak)) hcomment
  · split
    · exact hcomment
    · exact ends_fail _ _

theorem length_detectIndent (fuel : Nat) (c : Cursor) (done : List Char) (widest : Nat) :
    (detectIndent fuel c done widest).2.2.rest.length ≤ c.rest.length := by
  induction fuel generalizing c done widest with
  | zero => exact Nat.le_refl _
  | succ fuel ih =>
    unfold detectIndent
    split
    · refine Nat.le_trans (ih _ _ _) ?_
      rw [Cursor.step_length]
      omega
    · split
      · rename_i hbreak
        exact Nat.le_trans (ih _ _ _) (Nat.le_of_lt (Cursor.length_lineBreak? hbreak))
      · exact Nat.le_refl _

theorem length_indentTo (indent : Nat) (cs : List Char) (m : Mark) : (indentTo indent cs m).rest.length ≤ cs.length := by
  induction cs generalizing m with
  | nil => exact Nat.le_refl _
  | cons ch rest ih =>
    unfold indentTo
    split
    · exact Nat.le_trans (ih _) (Nat.le_succ _)
    · exact Nat.le_refl _

theorem length_blockBreaks (indent fuel : Nat) (c : Cursor) (done : List Char) :
    (blockBreaks indent fuel c done).2.rest.length ≤ c.rest.length := by
  induction fuel generalizing c done with
  | zero => exact Nat.le_refl _
  | succ fuel ih =>
    have hindent := length_indentTo indent c.rest c.mark
    unfold blockBreaks
    dsimp only
    split
    · rename_i hbreak
      refine Nat.le_trans (ih _ _) (Nat.le_trans (Nat.le_of_lt (Cursor.length_lineBreak? hbreak)) hindent)
    · exact hindent

theorem length_blockLoop (fold : Bool) (indent fuel : Nat) (c : Cursor) (text lastBreak empties : List Char) :
    (blockLoop fold indent fuel c text lastBreak empties).2.2.2.rest.length ≤ c.rest.length := by
  induction fuel generalizing c text lastBreak empties with
  | zero => exact Nat.le_refl _
  | succ fuel ih =>
    unfold blockLoop
    split
    · have hline := c.length_takeWhile (!isLineEnd ·)
      have hempties : ∀ next : Cursor, next.rest.length ≤ c.rest.length →
          (blockBreaks indent (next.rest.length + 1) next []).2.rest.length ≤ c.rest.length :=
        fun next hnext => Nat.le_trans (length_blockBreaks _ _ _ _) hnext
      dsimp only
      split
      · rename_i next hbreak
        have hnext := hempties next (Nat.le_trans (Nat.le_of_lt (Cursor.length_lineBreak? hbreak)) hline)
        split
        · exact Nat.le_trans (ih _ _ _ _) hnext
        · exact hnext
      · have hnext := hempties _ hline
        split
        · exact Nat.le_trans (ih _ _ _ _) hnext
        · exact hnext
    · exact Nat.le_refl _

theorem ends_block (fold : Bool) (outer : Int) (c : Cursor) :
    Ends (block fold outer c) (Left (c.rest.length - 1)) := by
  rw [← Cursor.step_length]
  unfold block
  refine (ends_blockHeader c.step).bind fun header hheader => ?_
  refine (ends_restOfLine header.2).bind fun next hnext => ?_
  obtain ⟨⟨chomp, inc⟩, after⟩ := header
  have hfirst : next.rest.length ≤ c.step.rest.length := Nat.le_trans hnext hheader
  dsimp only
  cases inc with
  | some n => exact Nat.le_trans (length_blockLoop _ _ _ _ _ _ _) (Nat.le_trans (length_blockBreaks _ _ _ _) hfirst)
  | none => exact Nat.le_trans (length_blockLoop _ _ _ _ _ _ _) (Nat.le_trans (length_detectIndent _ _ _ _) hfirst)

end Scalar

end Cascade.Yaml
