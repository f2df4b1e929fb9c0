import Cascade.Yaml.Token
import Cascade.Text.Basic

/-! Reading one scalar: plain, in single or double quotes, or as a block. Line
breaks inside a flow scalar fold: one break becomes a blank, further ones are
kept. -/

namespace Cascade.Yaml.Scalar

def fail {α : Type} (problem : String) (c : Cursor) : Except Refusal α :=
  .error (.malformed problem c.mark)

/-- The text of folded lines: the break before them, and the empty lines. -/
def folded (first : Char) (others : List Char) : List Char :=
  if first != '\n' then first :: others
  else if others.isEmpty then [' '] else others

/-! ## Plain scalars -/

/-- Empty lines and indentation between two lines of a plain scalar; none
before a document marker. -/
def plainBreaks : Nat → Cursor → List Char → Option (List Char × Cursor)
  | 0, c, done => some (done.reverse, c)
  | fuel + 1, c, done =>
    if c.head == ' ' then plainBreaks fuel c.step done
    else match c.lineBreak? with
      | none => some (done.reverse, c)
      | some (b, c) => if c.atSeparator then none else plainBreaks fuel c (b :: done)

/-- What stands between two words of a plain scalar, and whether a line ended.
Nothing is given when the scalar ends here. -/
def plainGap (c : Cursor) : List Char × Cursor × Bool :=
  let (blanks, c) := c.takeWhile (· == ' ')
  match c.lineBreak? with
  | none => (blanks, c, false)
  | some (b, c) =>
    if c.atSeparator then ([], c, true)
    else match plainBreaks (c.rest.length + 1) c [] with
      | some (others, c) => (folded b others, c, true)
      | none => ([], c, true)

/-- Whether a plain scalar may go on with these characters. -/
def plainGoesOn (inFlow : Bool) : List Char → Bool
  | [] => false
  | ch :: rest =>
    let next := rest.headD '\x00'
    !(isWordEnd ch ||
      (ch == ':' && (isWordEnd next || (inFlow && ",[]\x7b\x7d".toList.contains next))) ||
      (inFlow && ",?[]\x7b\x7d".toList.contains ch))

def plainWord (inFlow : Bool) : List Char → Mark → List Char × Cursor
  | [], m => ([], ⟨[], m⟩)
  | ch :: rest, m =>
    if plainGoesOn inFlow (ch :: rest) then
      let (word, c) := plainWord inFlow rest (m.after ch rest)
      (ch :: word, c)
    else ([], ⟨ch :: rest, m⟩)

/-- The result of reading a plain scalar: its text, where it ends, where
reading goes on, and whether a line ended after its last word (which allows a
simple key again), or no word was there to forbid one. -/
structure Plain where
  text : List Char
  finish : Mark
  next : Cursor
  keyAllowed : Bool

def plainLoop (inFlow : Bool) (indent : Nat) :
    Nat → Cursor → List Char → List Char → Mark → Bool → Plain
  | 0, c, text, _, finish, allowed => ⟨text, finish, c, allowed⟩
  | fuel + 1, c, text, gap, finish, allowed =>
    if c.head == '#' then ⟨text, finish, c, allowed⟩
    else
      let (word, c') := plainWord inFlow c.rest c.mark
      if word.isEmpty then ⟨text, finish, c, allowed⟩
      else
        let text := text ++ gap ++ word
        let (gap, next, lineEnded) := plainGap c'
        if gap.isEmpty || next.head == '#' || (!inFlow && next.column < indent) then
          ⟨text, c'.mark, next, lineEnded⟩
        else plainLoop inFlow indent fuel next text gap c'.mark lineEnded

def plain (inFlow : Bool) (indent : Nat) (c : Cursor) (keyAllowed : Bool) : Plain :=
  plainLoop inFlow indent (c.rest.length + 1) c [] [] c.mark keyAllowed

/-! ## Quoted scalars -/

/-- The character that a one-letter escape stands for in double quotes. -/
def escape? : Char → Option Char
  | '0' => some '\x00'
  | 'a' => some '\x07'
  | 'b' => some '\x08'
  | 't' | '\t' => some '\t'
  | 'n' => some '\n'
  | 'v' => some '\x0b'
  | 'f' => some '\x0c'
  | 'r' => some '\r'
  | 'e' => some '\x1b'
  | ' ' => some ' '
  | '"' => some '"'
  | '\\' => some '\\'
  | '/' => some '/'
  | 'N' => some '\x85'
  | '_' => some '\xa0'
  | 'L' => some '\u2028'
  | 'P' => some '\u2029'
  | _ => none

/-- The number of digits of an escape that gives a code point. -/
def escapeWidth? : Char → Option Nat
  | 'x' => some 2
  | 'u' => some 4
  | 'U' => some 8
  | _ => none

/-- Empty lines in a quoted scalar, with the blanks around them. -/
def quotedBreaks : Nat → Cursor → List Char → Except Refusal (List Char × Cursor)
  | 0, c, done => .ok (done.reverse, c)
  | fuel + 1, c, done =>
    if c.atSeparator then fail "a document marker inside a quoted scalar" c
    else
      let c := c.dropWhile fun ch => ch == ' ' || ch == '\t'
      match c.lineBreak? with
      | some (b, c) => quotedBreaks fuel c (b :: done)
      | none => .ok (done.reverse, c)

/-- A code point written as an escape; half of a surrogate pair reads as the
replacement character. -/
def codePoint (n : Nat) : Except Refusal Char :=
  if 0x10FFFF < n then .error (.fault .badValue)
  else if 0xD800 ≤ n ∧ n < 0xE000 then .ok '\uFFFD'
  else .ok (Char.ofNat n)

/-- The characters after a backslash in double quotes. -/
def escaped (c : Cursor) : Except Refusal (List Char × Cursor) :=
  match escape? c.head with
  | some ch => .ok ([ch], c.step)
  | none => match escapeWidth? c.head with
    | some width =>
      let c := c.step
      match Text.numeral? 16 (c.rest.take width), (c.rest.take width).length == width with
      | some n, true => do return ([← codePoint n], c.skip width)
      | _, _ => fail "an escape without its hexadecimal digits" c
    | none => match c.lineBreak? with
      | some (_, c) => quotedBreaks (c.rest.length + 1) c []
      | none => fail "an unknown escape" c

/-- The rest of a quoted scalar up to its closing mark. -/
def quotedLoop (double : Bool) : Nat → Cursor → List Char → Except Refusal (List Char × Cursor)
  | 0, c, _ => fail "an unclosed quoted scalar" c
  | fuel + 1, c, done =>
    match c.rest with
    | [] => fail "an unclosed quoted scalar" c
    | ch :: _ =>
      if !double && ch == '\'' && c.peek 1 == '\'' then
        quotedLoop double fuel c.step.step ('\'' :: done)
      else if ch == (if double then '"' else '\'') then .ok (done.reverse, c.step)
      else if double && ch == '\\' then
        match escaped c.step with
        | .error e => .error e
        | .ok (cs, c) => quotedLoop double fuel c (cs.reverse ++ done)
      else if ch == ' ' || ch == '\t' || isBreak ch then
        let (blanks, c) := c.takeWhile fun ch => ch == ' ' || ch == '\t'
        match c.lineBreak? with
        | some (b, c) => match quotedBreaks (c.rest.length + 1) c [] with
          | .error e => .error e
          | .ok (others, c) => quotedLoop double fuel c ((folded b others).reverse ++ done)
        | none =>
          if c.rest.isEmpty then fail "an unclosed quoted scalar" c
          else quotedLoop double fuel c (blanks.reverse ++ done)
      else quotedLoop double fuel c.step (ch :: done)

def quoted (double : Bool) (c : Cursor) : Except Refusal (List Char × Cursor) :=
  quotedLoop double (c.rest.length + 1) c.step []

/-! ## Block scalars -/

/-- What becomes of the line breaks at the end of a block scalar. -/
inductive Chomping where
  | strip
  | clip
  | keep

def chomping? : Char → Option Chomping
  | '+' => some .keep
  | '-' => some .strip
  | _ => none

/-- The indentation indicator, a digit from one to nine. -/
def increment (c : Cursor) : Except Refusal (Option Nat × Cursor) :=
  if c.head.isDigit then
    if c.head == '0' then fail "an indentation indicator of zero" c
    else .ok (some (c.head.toNat - 48), c.step)
  else .ok (none, c)

/-- Chomping and indentation indicators, in either order. -/
def blockHeader (c : Cursor) : Except Refusal ((Chomping × Option Nat) × Cursor) := do
  let (chomp, inc, c) ← match chomping? c.head with
    | some k => do
      let (inc, c) ← increment c.step
      pure (k, inc, c)
    | none => do
      let (inc, c) ← increment c
      match inc, chomping? c.head with
      | some _, some k => pure (k, inc, c.step)
      | _, _ => pure (.clip, inc, c)
  if c.head == ' ' || isLineEnd c.head then return ((chomp, inc), c)
  else fail "unexpected text after a block scalar's indicators" c

/-- Blanks, a comment and the end of the line. -/
def restOfLine (c : Cursor) : Except Refusal Cursor :=
  let c := c.dropWhile (· == ' ')
  let c := if c.head == '#' then c.dropWhile (!isLineEnd ·) else c
  match c.lineBreak? with
  | some (_, c) => .ok c
  | none => if c.rest.isEmpty then .ok c else fail "unexpected text before the end of the line" c

/-- Leading empty lines of a block scalar, and the widest indentation among
them and the first line with text. -/
def detectIndent : Nat → Cursor → List Char → Nat → List Char × Nat × Cursor
  | 0, c, done, widest => (done.reverse, widest, c)
  | fuel + 1, c, done, widest =>
    if c.head == ' ' then
      let c := c.step
      detectIndent fuel c done (max widest c.column)
    else match c.lineBreak? with
      | some (b, c) => detectIndent fuel c (b :: done) widest
      | none => (done.reverse, widest, c)

/-- Blanks up to a column. -/
def indentTo (indent : Nat) : List Char → Mark → Cursor
  | [], m => ⟨[], m⟩
  | ch :: rest, m =>
    if ch == ' ' && m.column < indent then indentTo indent rest (m.after ch rest)
    else ⟨ch :: rest, m⟩

/-- Empty lines of a block scalar. -/
def blockBreaks (indent : Nat) : Nat → Cursor → List Char → List Char × Cursor
  | 0, c, done => (done.reverse, c)
  | fuel + 1, c, done =>
    let c := indentTo indent c.rest c.mark
    match c.lineBreak? with
    | some (b, c) => blockBreaks indent fuel c (b :: done)
    | none => (done.reverse, c)

def isSpaceOrTab (ch : Char) : Bool := ch == ' ' || ch == '\t'

/-- The lines of a block scalar: the text so far, the break after its last
line (none when the text ended) and the empty lines that follow. -/
def blockLoop (fold : Bool) (indent : Nat) :
    Nat → Cursor → List Char → List Char → List Char → List Char × List Char × List Char × Cursor
  | 0, c, text, lastBreak, empties => (text, lastBreak, empties, c)
  | fuel + 1, c, text, lastBreak, empties =>
    if c.column == indent && !c.rest.isEmpty then
      let indented := isSpaceOrTab c.head
      let (line, c) := c.takeWhile (!isLineEnd ·)
      let text := text ++ empties ++ line
      let (lastBreak, c) := match c.lineBreak? with
        | some (b, c) => ([b], c)
        | none => ([], c)
      let (empties, c) := blockBreaks indent (c.rest.length + 1) c []
      if c.column == indent && !c.rest.isEmpty then
        let joint :=
          if fold && lastBreak == ['\n'] && !indented && !isSpaceOrTab c.head then
            if empties.isEmpty then [' '] else []
          else lastBreak
        blockLoop fold indent fuel c (text ++ joint) lastBreak empties
      else (text, lastBreak, empties, c)
    else (text, lastBreak, empties, c)

/-- A block scalar, from its indicator on, inside a collection indented by
`outer` (one less than zero at the top). -/
def block (fold : Bool) (outer : Int) (c : Cursor) : Except Refusal (List Char × Cursor) := do
  let ((chomp, inc), c) ← blockHeader c.step
  let c ← restOfLine c
  let least := max 1 (outer + 1).toNat
  let (empties, indent, c) := match inc with
    | some n =>
      let indent := least + n - 1
      let (empties, c) := blockBreaks indent (c.rest.length + 1) c []
      (empties, indent, c)
    | none =>
      let (empties, widest, c) := detectIndent (c.rest.length + 1) c [] 0
      (empties, max least widest, c)
  let (text, lastBreak, empties, c) := blockLoop fold indent (c.rest.length + 1) c [] [] empties
  let text := match chomp with
    | .strip => text
    | .clip => text ++ lastBreak
    | .keep => text ++ lastBreak ++ empties
  return (text, c)

end Cascade.Yaml.Scalar
