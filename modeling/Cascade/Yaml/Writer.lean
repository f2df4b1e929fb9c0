import Cascade.Yaml.Tag
import Cascade.Value.Text

/-! Writing plain data as a YAML document in block style, two columns to a level
and at most eighty columns to a line where a line may be broken. Text is plain
when it reads back as itself, in single quotes otherwise, and in double quotes
with escapes when it holds other than printable ASCII or blanks next to line
breaks. -/

namespace Cascade.Yaml

/-- The document as far as it is written. -/
structure Sheet where
  text : String := ""
  column : Nat := 0
  /-- What was written last separates words. -/
  spaced : Bool := true
  /-- The line holds only indentation and indicators so far. -/
  fresh : Bool := true

namespace Sheet

def width : Nat := 80

def put (s : Sheet) (t : String) : Sheet :=
  { s with text := s.text ++ t, column := s.column + t.length }

def endLine (s : Sheet) : Sheet := ⟨s.text ++ "\n", 0, true, true⟩

/-- Moves to a column, on a new line unless only indentation precedes it. -/
def indentTo (s : Sheet) (column : Nat) : Sheet :=
  let s := if !s.fresh || column < s.column || (s.column == column && !s.spaced) then s.endLine else s
  if s.column < column then
    { s.put (Text.repeated ' ' (column - s.column)) with spaced := true }
  else s

/-- An indicator; after some of them the line still counts as fresh. -/
def indicator (s : Sheet) (t : String) (apart : Bool) (keepsFresh : Bool) : Sheet :=
  let s := s.put (if s.spaced || !apart then t else " " ++ t)
  { s with spaced := false, fresh := s.fresh && keepsFresh }

/-- In the middle of a word. -/
def inWord (s : Sheet) : Sheet := { s with spaced := false, fresh := false }

end Sheet

namespace Written

/-- What separates words for the rules on indicators. -/
def separates (c : Char) : Bool :=
  c == '\x00' || c == ' ' || c == '\t' || c == '\r' || c == '\n' || c == '\x85' ||
    c == '\u2028' || c == '\u2029'

def isLineBreak (c : Char) : Bool :=
  c == '\n' || c == '\x85' || c == '\u2028' || c == '\u2029'

/-- Whether a colon or a number sign after the first character would end a
plain scalar or begin a comment. -/
def hasInnerIndicator (afterBlank : Bool) : List Char → Bool
  | [] => false
  | c :: rest =>
    (c == ':' && separates (rest.headD ' ')) || (c == '#' && afterBlank) ||
      hasInnerIndicator (separates c) rest

/-- Whether a text cannot be plain because of the indicators in it. -/
def hasIndicator (cs : List Char) : Bool :=
  match cs with
  | [] => false
  | c :: rest =>
    "---".toList.isPrefixOf cs || "...".toList.isPrefixOf cs ||
      "#,[]\x7b\x7d&*!|>'\"%@`".toList.contains c ||
      ("?:-".toList.contains c && separates (rest.headD ' ')) ||
      hasInnerIndicator (separates c) rest

/-- Whether a character of the first class stands right before one of the second. -/
def hasPair (p q : Char → Bool) : List Char → Bool
  | c :: d :: rest => (p c && q d) || hasPair p q (d :: rest)
  | _ => false

def isPrintableAscii (c : Char) : Bool := ' ' ≤ c && c ≤ '~'

def isBlank (c : Char) : Bool := c == ' '

inductive Style where
  | plain
  | single
  | double
  deriving DecidableEq

def isMultiline (cs : List Char) : Bool := cs.any isLineBreak

/-- How a text is written, as the key of an entry or elsewhere. Text that reads
back as another type must be quoted. -/
def style (text : String) (isText isKey : Bool) : Style :=
  let cs := text.toList
  let special := cs.any fun c => !(c == '\n' || isPrintableAscii c)
  let edge := fun c => isBlank c || isLineBreak c
  let plainReads := !isText || Tag.ofPlain text == .str
  if special || hasPair isBlank isLineBreak cs then .double
  else if plainReads && !hasPair isLineBreak isBlank cs && !isMultiline cs && !hasIndicator cs &&
      !(cs.head?.any edge) && !(cs.getLast?.any edge) then .plain
  else if hasPair isLineBreak isBlank cs || (isKey && isMultiline cs) then .double
  else .single

/-- Whether a text can be a key without an indicator of its own, given the
length that its tag adds. -/
def isSimpleKey (text : String) (tagLength : Nat) : Bool :=
  tagLength + text.length < 128 && !text.isEmpty && !isMultiline text.toList

/-- Maximal runs of equal class. -/
def runs (cs : List Char) : List (List Char) :=
  cs.splitBy fun a b => (a == ' ') == (b == ' ') && isLineBreak a == isLineBreak b

/-- Plain text; a line may be broken at a single blank. -/
def plain (split : Bool) (indent : Nat) (text : String) (s : Sheet) : Sheet :=
  let s := if s.spaced then s else s.put " "
  (runs text.toList).foldl (fun s run =>
    if run == [' '] && Sheet.width < s.column && split then (s.indentTo indent).inWord
    else s.put (String.ofList run)) s.inWord

/-- A run inside single quotes: quotes are doubled, and a line break is written
as one more than it stands for. -/
def singleRun (indent : Nat) (mayBreak : Bool) (s : Sheet) (run : List Char) : Sheet :=
  if run.any isLineBreak then
    (run.foldl (fun s _ => s.endLine) s.endLine).indentTo indent
  else if run == [' '] && Sheet.width < s.column && mayBreak then s.indentTo indent
  else s.put (String.ofList (run.flatMap fun c => if c == '\'' then ['\'', '\''] else [c]))

/-- Text in single quotes; a line may be broken at a single inner blank. -/
def single (split : Bool) (indent : Nat) (text : String) (s : Sheet) : Sheet :=
  let all := (runs text.toList).zipIdx
  let s := all.foldl (fun s (run, i) =>
    singleRun indent (split && 0 < i && i + 1 < all.length) s run) (s.indicator "'" true false)
  s.indicator "'" false false

def namedEscapes : List (Char × String) :=
  [('\x00', "0"), ('\x07', "a"), ('\x08', "b"), ('\t', "t"), ('\n', "n"), ('\x0b', "v"),
    ('\x0c', "f"), ('\r', "r"), ('\x1b', "e"), ('"', "\""), ('\\', "\\"), ('\x85', "N"),
    ('\xa0', "_"), ('\u2028', "L"), ('\u2029', "P")]

def escape (c : Char) : String :=
  match namedEscapes.lookup c with
  | some e => "\\" ++ e
  | none =>
    let n := c.toNat
    if n ≤ 0xFF then "\\x" ++ Text.upperAscii (Text.hex 2 n)
    else if n ≤ 0xFFFF then "\\u" ++ Text.upperAscii (Text.hex 4 n)
    else "\\U" ++ Text.upperAscii (Text.hex 8 n)

def needsEscape (c : Char) : Bool := c == '"' || c == '\\' || !isPrintableAscii c

/-- The inside of double quotes. `held` is what has been read since the last
place where a line could be broken, in reverse. A line is broken before a blank
or after an escape, with a backslash; a blank that begins a line is escaped. -/
def doubleInside (split : Bool) (indent : Nat) : Bool → List Char → List Char → Sheet → Sheet
  | _, held, [], s => s.put (String.ofList held.reverse)
  | isFirst, held, c :: rest, s =>
    let inside := split && !isFirst && !rest.isEmpty
    if needsEscape c then
      let s := (s.put (String.ofList held.reverse)).put (escape c)
      let s := if inside && Sheet.width + 1 < s.column then
          let s := ((s.put "\\").indentTo indent).inWord
          if rest.head? == some ' ' then s.put "\\" else s
        else s
      doubleInside split indent false [] rest s
    else if inside && (c == ' ' || held.isEmpty) && Sheet.width < s.column + held.length then
      let s := ((s.put (String.ofList held.reverse ++ "\\")).indentTo indent).inWord
      let s := if c == ' ' then s.put "\\" else s
      doubleInside split indent false [c] rest s
    else doubleInside split indent false (c :: held) rest s

def double (split : Bool) (indent : Nat) (text : String) (s : Sheet) : Sheet :=
  (doubleInside split indent true [] text.toList (s.indicator "\"" true false)).indicator "\"" false
    false

/-- A scalar; as a key it stays on one line. -/
def write (text : String) (isText isKey : Bool) (indent : Nat) (s : Sheet) : Sheet :=
  match style text isText isKey with
  | .plain => plain (!isKey) indent text s
  | .single => single (!isKey) indent text s
  | .double => double (!isKey) indent text s

end Written

/-- Numbers that are not finite are words, and a power of ten always follows a
decimal point. -/
def floatText (x : Float) : String :=
  if x.isNaN then ".nan"
  else if x.isInf then (if x < 0.0 then "-.inf" else ".inf")
  else
    let t := Decimal.text Decimal.plainSpelling x
    match Text.cutFirst 'e' t with
    | some (digits, power) => if Text.contains digits "." then t else digits ++ ".0e" ++ power
    | none => t

/-- The text of a scalar. -/
def scalarText : Value → String
  | .null => "null"
  | .bool b => if b then "true" else "false"
  | .float x => floatText x
  | v => v.text

/-- The length of the written name of a value's type. -/
def tagLength : Value → Nat
  | .null | .bool _ => 6
  | .float _ => 7
  | _ => 5

/-- Whether a value stands in front of its colon on the same line. -/
def isSimpleKey : Value → Bool
  | .list items | .tuple items => items.isEmpty
  | .mapping entries => entries.isEmpty
  | v => Written.isSimpleKey (scalarText v) (tagLength v)

/-- The column of what belongs to a collection inside another. -/
def deeper (indent : Option Nat) (first : Nat) : Nat :=
  match indent with
  | none => first
  | some n => n + 2

inductive Context where
  | item
  | value
  | key
  deriving DecidableEq

mutual

/-- A value. A sequence that is the value of an entry is not indented further. -/
def writeNode (v : Value) (indent : Option Nat) (context : Context) (s : Sheet) : Sheet :=
  match v with
  | .list items | .tuple items =>
    if items.isEmpty then { s.indicator "[" true false with spaced := true }.indicator "]" false false
    else
      let column := if context != .item && !s.fresh then indent.getD 0 else deeper indent 0
      writeItems items column s
  | .mapping entries =>
    if entries.isEmpty then
      { s.indicator "\x7b" true false with spaced := true }.indicator "\x7d" false false
    else writeEntries entries (deeper indent 0) s
  | .str text => Written.write text true (context == .key) (deeper indent 2) s
  | v => Written.write (scalarText v) false (context == .key) (deeper indent 2) s

def writeItems : List Value → Nat → Sheet → Sheet
  | [], _, s => s
  | v :: rest, column, s =>
    let s := writeNode v (some column) .item ((s.indentTo column).indicator "-" true true)
    writeItems rest column s

def writeEntries : List (Value × Value) → Nat → Sheet → Sheet
  | [], _, s => s
  | (k, v) :: rest, column, s =>
    let s := s.indentTo column
    let s := if isSimpleKey k then (writeNode k (some column) .key s).indicator ":" false false
      else
        let s := writeNode k (some column) .value (s.indicator "?" true true)
        (s.indentTo column).indicator ":" true true
    writeEntries rest column (writeNode v (some column) .value s)

end

/-- A sequence as a document. -/
def document (items : List Value) : String :=
  ((writeNode (.list items) none .item {}).indentTo 0).text

end Cascade.Yaml
