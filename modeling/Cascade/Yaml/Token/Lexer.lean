import Cascade.Yaml.Token.Scalar

/-! Splitting a YAML text into tokens. A simple key is known as a key only when
its colon is met, so a place where one may have begun stays pending until the
colon comes, the line ends, or 1024 characters have passed; the key token is
then put in front of it. Tokens from a pending place on are not yet certain, so
a text that stops being readable has only the tokens before it. -/

namespace Cascade.Yaml

/-- A place where a simple key may have begun. -/
structure PendingKey where
  /-- The number of the token in front of which the key token would stand. -/
  position : Nat
  /-- In a block mapping nothing but a key can stand here. -/
  required : Bool
  mark : Mark

structure Lexer where
  cursor : Cursor
  /-- How many flow collections are open. -/
  flow : Nat := 0
  indent : Int := -1
  indents : List Int := []
  keyAllowed : Bool := true
  /-- Pending places by flow depth. -/
  pending : List (Nat × PendingKey) := []
  tokens : Array Token := #[]

namespace Lexer

variable {α : Type}

def fail (problem : String) (c : Cursor) : Except Refusal α := .error (.malformed problem c.mark)

def mark (s : Lexer) : Mark := s.cursor.mark

def push (s : Lexer) (kind : TokenKind) (start finish : Mark) : Lexer :=
  { s with tokens := s.tokens.push ⟨kind, start, finish⟩ }

/-- The number of tokens that nothing read later can change. -/
def certain (s : Lexer) : Nat := s.pending.foldl (fun n p => min n p.2.position) s.tokens.size

/-! ## Pending keys and indentation -/

/-- Pending places that have passed are dropped. -/
def dropStale (s : Lexer) : Except Refusal Lexer :=
  let isStale (p : Nat × PendingKey) : Bool :=
    p.2.mark.line != s.mark.line || p.2.mark.index + 1024 < s.mark.index
  if s.pending.any fun p => isStale p && p.2.required then fail "a key without its colon" s.cursor
  else .ok { s with pending := s.pending.filter fun p => !isStale p }

/-- The pending place of this flow depth is dropped. -/
def removeKey (s : Lexer) : Except Refusal Lexer :=
  if s.pending.any fun p => p.1 == s.flow && p.2.required then fail "a key without its colon" s.cursor
  else .ok { s with pending := s.pending.filter fun p => p.1 != s.flow }

/-- A simple key may begin here. -/
def saveKey (s : Lexer) : Except Refusal Lexer :=
  if s.keyAllowed then do
    let required := s.flow == 0 && s.indent == s.cursor.column
    let s ← s.removeKey
    return { s with pending := (s.flow, ⟨s.tokens.size, required, s.mark⟩) :: s.pending }
  else .ok s

/-- Block collections indented deeper than a column end. -/
def closeDeeper (m : Mark) (column : Int) : Int → List Int → Array Token → Int × List Int × Array Token
  | indent, [], tokens => (indent, [], tokens)
  | indent, outer :: rest, tokens =>
    if column < indent then closeDeeper m column outer rest (tokens.push ⟨.blockEnd, m, m⟩)
    else (indent, outer :: rest, tokens)

def unwind (s : Lexer) (column : Int) : Lexer :=
  if s.flow != 0 then s
  else
    let (indent, indents, tokens) := closeDeeper s.mark column s.indent s.indents s.tokens
    { s with indent, indents, tokens }

/-- A block collection begins at a column, if that is deeper. -/
def deepen (s : Lexer) (column : Int) : Option Lexer :=
  if s.indent < column then some { s with indents := s.indent :: s.indents, indent := column }
  else none

/-- A block collection of the given kind begins here, if this is deeper. -/
def openBlock (s : Lexer) (kind : TokenKind) : Lexer :=
  match s.deepen s.cursor.column with
  | some s => s.push kind s.mark s.mark
  | none => s

/-! ## Between tokens -/

/-- Blanks, comments and line breaks; a line break in a block allows a key. -/
def gap (inFlow : Bool) : List Char → Mark → Bool → Bool → Cursor × Bool
  | [], m, _, allowed => (⟨[], m⟩, allowed)
  | ch :: rest, m, inComment, allowed =>
    if isBreak ch then gap inFlow rest (m.after ch rest) false (allowed || !inFlow)
    else if inComment then gap inFlow rest (m.after ch rest) true allowed
    else if ch == ' ' then gap inFlow rest (m.after ch rest) false allowed
    else if ch == '#' then gap inFlow rest (m.after ch rest) true allowed
    else (⟨ch :: rest, m⟩, allowed)

def skipGap (s : Lexer) : Lexer :=
  let c := if s.mark.index == 0 && s.cursor.head == '\uFEFF' then s.cursor.step else s.cursor
  let (cursor, keyAllowed) := gap (s.flow != 0) c.rest c.mark false s.keyAllowed
  { s with cursor, keyAllowed }

/-! ## Tokens -/

def isNameChar (c : Char) : Bool := c.isAlphanum || c == '-' || c == '_'

def streamEnd (s : Lexer) : Except Refusal Lexer := do
  let s ← (s.unwind (-1)).removeKey
  return { s with keyAllowed := false, pending := [] }.push .streamEnd s.mark s.mark

/-- A character or more that are a token by themselves. -/
def indicator (s : Lexer) (kind : TokenKind) (width : Nat) : Lexer :=
  let cursor := s.cursor.skip width
  { s with cursor }.push kind s.mark cursor.mark

def documentMark (s : Lexer) (kind : TokenKind) : Except Refusal Lexer := do
  let s ← (s.unwind (-1)).removeKey
  return { s with keyAllowed := false }.indicator kind 3

def flowStart (s : Lexer) (kind : TokenKind) : Except Refusal Lexer := do
  let s ← s.saveKey
  return { s with flow := s.flow + 1, keyAllowed := true }.indicator kind 1

def flowEnd (s : Lexer) (kind : TokenKind) : Except Refusal Lexer := do
  let s ← s.removeKey
  return { s with flow := s.flow - 1, keyAllowed := false }.indicator kind 1

def flowEntry (s : Lexer) : Except Refusal Lexer := do
  let s ← { s with keyAllowed := true }.removeKey
  return s.indicator .flowEntry 1

def blockEntry (s : Lexer) : Except Refusal Lexer := do
  let s ← if s.flow != 0 then pure s
    else if s.keyAllowed then pure (s.openBlock .blockSequenceStart)
    else fail "a sequence entry is not allowed here" s.cursor
  let s ← { s with keyAllowed := true }.removeKey
  return s.indicator .blockEntry 1

def explicitKey (s : Lexer) : Except Refusal Lexer := do
  let s ← if s.flow != 0 then pure s
    else if s.keyAllowed then pure (s.openBlock .blockMappingStart)
    else fail "a mapping key is not allowed here" s.cursor
  let s ← { s with keyAllowed := s.flow == 0 }.removeKey
  return s.indicator .key 1

def insertAt (tokens : Array Token) (n : Nat) (t : Token) : Array Token :=
  tokens.extract 0 n ++ #[t] ++ tokens.extract n tokens.size

/-- A colon: the pending place of this flow depth was a key after all; without
one the key is empty. -/
def colon (s : Lexer) : Except Refusal Lexer := do
  match s.pending.lookup s.flow with
  | some k =>
    let s := { s with
      pending := s.pending.filter fun p => p.1 != s.flow
      tokens := insertAt s.tokens k.position ⟨.key, k.mark, k.mark⟩
      keyAllowed := false }
    let s := if s.flow != 0 then s
      else match s.deepen k.mark.column with
        | some s =>
          { s with tokens := insertAt s.tokens k.position ⟨.blockMappingStart, k.mark, k.mark⟩ }
        | none => s
    return s.indicator .value 1
  | none =>
    let s ← if s.flow != 0 then pure s
      else if s.keyAllowed then pure (s.openBlock .blockMappingStart)
      else fail "a mapping value is not allowed here" s.cursor
    let s ← { s with keyAllowed := s.flow == 0 }.removeKey
    return s.indicator .value 1

/-- The name after the mark of an alias or anchor. -/
def reference (s : Lexer) (kind : String → TokenKind) : Except Refusal Lexer := do
  let s ← s.saveKey
  let (name, c) := s.cursor.step.takeWhile isNameChar
  if name.isEmpty then fail "a missing name of an anchor" c
  else if isWordEnd c.head || "?:,]\x7d%@`".toList.contains c.head then
    return { s with keyAllowed := false, cursor := c }.push (kind (String.ofList name)) s.mark c.mark
  else fail "an unexpected character after the name of an anchor" c

/-! ## Tags and directives -/

/-- The byte of an escape of two hexadecimal digits after a percent sign. -/
def uriByte (c : Cursor) : Except Refusal (UInt8 × Cursor) :=
  match Text.numeral? 16 (c.rest.take 2), (c.rest.take 2).length == 2 with
  | some n, true => .ok (n.toUInt8, c.skip 2)
  | _, _ => fail "an escape without its hexadecimal digits" c

/-- Consecutive escapes, which are bytes of text. -/
def uriEscapes : Nat → Cursor → List UInt8 → Except Refusal (List UInt8 × Cursor)
  | 0, c, done => .ok (done.reverse, c)
  | fuel + 1, c, done =>
    if c.head == '%' then do
      let (b, c) ← uriByte c.step
      uriEscapes fuel c (b :: done)
    else .ok (done.reverse, c)

def isUriChar (c : Char) : Bool := c.isAlphanum || "-;/?:@&=+$,_.!~*'()[]".toList.contains c

def uriLoop : Nat → Cursor → List Char → Except Refusal (List Char × Cursor)
  | 0, c, done => .ok (done, c)
  | fuel + 1, c, done =>
    if c.head == '%' then do
      let (bytes, next) ← uriEscapes (c.rest.length + 1) c []
      match String.fromUTF8? ⟨bytes.toArray⟩ with
      | some s => uriLoop fuel next (done ++ s.toList)
      | none => fail "escapes that are not text" c
    else
      let (word, next) := c.takeWhile isUriChar
      if word.isEmpty then .ok (done, c) else uriLoop fuel next (done ++ word)

def uri (c : Cursor) : Except Refusal (String × Cursor) := do
  let (cs, c) ← uriLoop (c.rest.length + 1) c []
  if cs.isEmpty then fail "a missing tag" c else return (String.ofList cs, c)

/-- A tag handle: one exclamation mark, or a name between two. -/
def handle (c : Cursor) : Except Refusal (String × Cursor) :=
  if c.head != '!' then fail "a missing tag handle" c
  else if c.peek 1 == ' ' then .ok ("!", c.step)
  else
    let (name, next) := c.step.takeWhile isNameChar
    if next.head == '!' then .ok (String.ofList ('!' :: (name ++ ['!'])), next.step)
    else fail "an unclosed tag handle" next

def tagParts (c : Cursor) : Except Refusal (Option String × String × Cursor) := do
  let next := c.peek 1
  if next == '<' then
    let (suffix, c) ← uri (c.skip 2)
    if c.head == '>' then return (none, suffix, c.step) else fail "an unclosed tag" c
  else if isWordEnd next then return (none, "!", c.step)
  else
    let word := c.step.rest.takeWhile fun ch => !(ch == ' ' || isLineEnd ch)
    let (h, c) ← if word.contains '!' then handle c else pure ("!", c.step)
    let (suffix, c) ← uri c
    return (some h, suffix, c)

def tag (s : Lexer) : Except Refusal Lexer := do
  let s ← s.saveKey
  let (h, suffix, c) ← tagParts s.cursor
  if c.head == ' ' || isLineEnd c.head then
    return { s with keyAllowed := false, cursor := c }.push (.tag h suffix) s.mark c.mark
  else fail "an unexpected character after a tag" c

def skipBlanks (c : Cursor) : Cursor := c.dropWhile (· == ' ')

def endsWord (c : Cursor) : Bool := c.head == ' ' || isLineEnd c.head

def number (c : Cursor) : Except Refusal (Nat × Cursor) :=
  let (ds, next) := c.takeWhile Char.isDigit
  if ds.isEmpty then fail "a missing digit" c else .ok ((Text.numeral? 10 ds).getD 0, next)

def version (c : Cursor) : Except Refusal (TokenKind × Cursor) := do
  let (major, c) ← number (skipBlanks c)
  if c.head != '.' then fail "a missing point in a version" c
  else
    let (_, c) ← number c.step
    if endsWord c then return (.versionDirective major, c)
    else fail "an unexpected character after a version" c

def tagDefinition (c : Cursor) : Except Refusal (TokenKind × Cursor) := do
  let (h, c) ← handle (skipBlanks c)
  if c.head != ' ' then fail "a missing blank after a tag handle" c
  else
    let (replacement, c) ← uri (skipBlanks c)
    if endsWord c then return (.tagDirective h replacement, c)
    else fail "an unexpected character after a tag definition" c

def directive (s : Lexer) : Except Refusal Lexer := do
  let s ← (s.unwind (-1)).removeKey
  let (name, c) := s.cursor.step.takeWhile isNameChar
  if name.isEmpty || !endsWord c then fail "an unexpected character in a directive" c
  else
    let (kind, c) ←
      if name == "YAML".toList then version c
      else if name == "TAG".toList then tagDefinition c
      else pure (.otherDirective, c.dropWhile (!isLineEnd ·))
    let finish := c.mark
    let cursor ← Scalar.restOfLine c
    return { s with keyAllowed := false, cursor }.push kind s.mark finish

/-! ## Scalars -/

def plain (s : Lexer) : Except Refusal Lexer := do
  let s ← s.saveKey
  let p := Scalar.plain (s.flow != 0) (s.indent + 1).toNat s.cursor false
  return { s with keyAllowed := p.keyAllowed, cursor := p.next }.push
    (.scalar (String.ofList p.text) true) s.mark p.finish

def quoted (s : Lexer) (double : Bool) : Except Refusal Lexer := do
  let s ← s.saveKey
  let (text, c) ← Scalar.quoted double s.cursor
  return { s with keyAllowed := false, cursor := c }.push
    (.scalar (String.ofList text) false) s.mark c.mark

def block (s : Lexer) (fold : Bool) : Except Refusal Lexer := do
  let s ← { s with keyAllowed := true }.removeKey
  let (text, c) ← Scalar.block fold s.indent s.cursor
  return { s with cursor := c }.push (.scalar (String.ofList text) false) s.mark c.mark

/-- Whether a plain scalar may begin here. -/
def plainStarts (s : Lexer) : Bool :=
  let ch := s.cursor.head
  !(isWordEnd ch || "-?:,[]\x7b\x7d#&*!|>'\"%@`".toList.contains ch) ||
    (!isWordEnd (s.cursor.peek 1) && (ch == '-' || (s.flow == 0 && (ch == '?' || ch == ':'))))

/-- One more token, with those that its place implies. -/
def next (s : Lexer) : Except Refusal Lexer := do
  let s ← s.skipGap.dropStale
  let s := s.unwind s.cursor.column
  let c := s.cursor
  let alone := isWordEnd (c.peek 1)
  match c.rest with
  | [] => s.streamEnd
  | ch :: _ =>
    if ch == '%' && c.column == 0 then s.directive
    else if c.column == 0 && c.atSeparator then
      s.documentMark (if ch == '-' then .documentStart else .documentEnd)
    else if ch == '[' then s.flowStart .flowSequenceStart
    else if ch == '\x7b' then s.flowStart .flowMappingStart
    else if ch == ']' then s.flowEnd .flowSequenceEnd
    else if ch == '\x7d' then s.flowEnd .flowMappingEnd
    else if ch == ',' then s.flowEntry
    else if ch == '-' && alone then s.blockEntry
    else if ch == '?' && (s.flow != 0 || alone) then s.explicitKey
    else if ch == ':' && (s.flow != 0 || alone) then s.colon
    else if ch == '*' then s.reference .alias
    else if ch == '&' then s.reference .anchor
    else if ch == '!' then s.tag
    else if ch == '|' && s.flow == 0 then s.block false
    else if ch == '>' && s.flow == 0 then s.block true
    else if ch == '\'' then s.quoted false
    else if ch == '"' then s.quoted true
    else if s.plainStarts then s.plain
    else fail "a character that cannot start a token" c

def ended (s : Lexer) : Bool := s.tokens.back?.any fun t => t.kind == .streamEnd

def run : Nat → Lexer → Tokens
  | 0, s => ⟨s.tokens.toList, some (.fault .endless)⟩
  | fuel + 1, s =>
    match s.next >>= dropStale with
    | .error e => ⟨(s.tokens.extract 0 s.certain).toList, some e⟩
    | .ok s => if s.ended then ⟨s.tokens.toList, none⟩ else run fuel s

end Lexer

/-- Characters that a YAML text may contain. -/
def isAcceptable (c : Char) : Bool :=
  let n := c.toNat
  c == '\t' || c == '\n' || c == '\r' || (0x20 ≤ n && n ≤ 0x7E) || n == 0x85 ||
    (0xA0 ≤ n && n ≤ 0xD7FF) || (0xE000 ≤ n && n ≤ 0xFFFD) || 0x10000 ≤ n

/-- The tokens of a text. -/
def Tokens.ofText (cs : List Char) : Tokens :=
  match cs.find? fun c => !isAcceptable c with
  | some c => ⟨[], some (.unacceptable c)⟩
  | none => Lexer.run (cs.length + 2) ⟨Cursor.ofText cs, 0, -1, [], true, [], #[]⟩

end Cascade.Yaml
