import Cascade.Fault

/-! A place in a YAML text: what is left to read and how far from the beginning
it is. Lines end at line feeds, carriage returns, next-line characters and the
two Unicode separators; past the end every character reads as NUL, which no
acceptable text contains. -/

namespace Cascade.Yaml

/-- A position, counted from zero. -/
structure Mark where
  index : Nat
  line : Nat
  column : Nat
  deriving DecidableEq, Repr

def Mark.start : Mark := ⟨0, 0, 0⟩

/-- Why a text is no YAML document. -/
inductive Refusal where
  | malformed (problem : String) (mark : Mark)
  /-- A control character. -/
  | unacceptable (c : Char)
  /-- A scalar whose type does not take its text. -/
  | fault (f : Fault)

def isBreak (c : Char) : Bool :=
  c == '\n' || c == '\r' || c == '\x85' || c == '\u2028' || c == '\u2029'

/-- The end of a line or of the text. -/
def isLineEnd (c : Char) : Bool := c == '\x00' || isBreak c

/-- The end of a word: a blank, a tab, or the end of the line. -/
def isWordEnd (c : Char) : Bool := c == ' ' || c == '\t' || isLineEnd c

/-- The position after a character, given what follows it. -/
def Mark.after (m : Mark) (c : Char) (rest : List Char) : Mark :=
  if c == '\n' || c == '\x85' || c == '\u2028' || c == '\u2029' ||
      (c == '\r' && rest.head? != some '\n') then ⟨m.index + 1, m.line + 1, 0⟩
  else if c == '\uFEFF' then ⟨m.index + 1, m.line, m.column⟩
  else ⟨m.index + 1, m.line, m.column + 1⟩

structure Cursor where
  rest : List Char
  mark : Mark

namespace Cursor

def ofText (cs : List Char) : Cursor := ⟨cs, Mark.start⟩

def peek (c : Cursor) (n : Nat) : Char := c.rest.getD n '\x00'

def head (c : Cursor) : Char := c.rest.headD '\x00'

def column (c : Cursor) : Nat := c.mark.column

def step (c : Cursor) : Cursor :=
  match c.rest with
  | [] => c
  | ch :: rest => ⟨rest, c.mark.after ch rest⟩

def skip : Nat → Cursor → Cursor
  | 0, c => c
  | n + 1, c => skip n c.step

/-- Characters while a condition holds, and the place after them. -/
def takeOver (p : Char → Bool) : List Char → Mark → List Char × Cursor
  | [], m => ([], ⟨[], m⟩)
  | ch :: rest, m =>
    if p ch then
      let (taken, c) := takeOver p rest (m.after ch rest)
      (ch :: taken, c)
    else ([], ⟨ch :: rest, m⟩)

def takeWhile (c : Cursor) (p : Char → Bool) : List Char × Cursor := takeOver p c.rest c.mark

def dropWhile (c : Cursor) (p : Char → Bool) : Cursor := (c.takeWhile p).2

/-- A line break: the Unicode separators as themselves, all others as a line
feed, a carriage return and line feed together as one. -/
def lineBreak? (c : Cursor) : Option (Char × Cursor) :=
  match c.rest with
  | '\r' :: '\n' :: _ => some ('\n', c.step.step)
  | ch :: _ =>
    if ch == '\u2028' || ch == '\u2029' then some (ch, c.step)
    else if isBreak ch then some ('\n', c.step)
    else none
  | [] => none

/-- Whether a document marker stands here as a word of its own. -/
def atSeparator (c : Cursor) : Bool :=
  ("---".toList.isPrefixOf c.rest || "...".toList.isPrefixOf c.rest) && isWordEnd (c.peek 3)

end Cursor

end Cascade.Yaml
