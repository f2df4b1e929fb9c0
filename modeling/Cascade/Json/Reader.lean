import Cascade.Value
import Cascade.Decimal.Text
import Cascade.Text.Basic

/-! Reading JSON text. The grammar is the standard one with the words `NaN`,
`Infinity` and `-Infinity` added; a repeated key keeps its place and takes its
last value. A text that is not JSON is refused at one position with one of a
fixed set of complaints. -/

namespace Cascade.Json

inductive Complaint where
  | unexpectedMark
  | value
  | propertyName
  | colon
  | comma
  | unterminated
  | controlCharacter
  | escape
  | unicodeEscape
  | extraData
  deriving DecidableEq, Repr

def Complaint.message : Complaint → String
  | .unexpectedMark => "Unexpected UTF-8 BOM (decode using utf-8-sig)"
  | .value => "Expecting value"
  | .propertyName => "Expecting property name enclosed in double quotes"
  | .colon => "Expecting ':' delimiter"
  | .comma => "Expecting ',' delimiter"
  | .unterminated => "Unterminated string starting at"
  | .controlCharacter => "Invalid control character at"
  | .escape => "Invalid \\escape"
  | .unicodeEscape => "Invalid \\uXXXX escape"
  | .extraData => "Extra data"

/-- A complaint, with the part of the text that begins where it arose. -/
structure Refusal where
  complaint : Complaint
  rest : List Char

/-- A refusal with line and column, both counted from one. -/
structure LocatedRefusal where
  complaint : Complaint
  line : Nat
  column : Nat

abbrev Read (α : Type) := Except Refusal (α × List Char)

def isBlank (c : Char) : Bool := c == ' ' || c == '\t' || c == '\n' || c == '\r'

def skipBlanks (cs : List Char) : List Char := cs.dropWhile isBlank

/-- The character that a one-letter escape stands for. -/
def simpleEscape? : Char → Option Char
  | '"' => some '"'
  | '\\' => some '\\'
  | '/' => some '/'
  | 'b' => some '\x08'
  | 'f' => some '\x0c'
  | 'n' => some '\n'
  | 'r' => some '\r'
  | 't' => some '\t'
  | _ => none

/-- Four hexadecimal digits and what follows them, which is never empty: the
string that they stand in has still to be closed. -/
def fourHex? : List Char → Option (Nat × List Char)
  | a :: b :: c :: d :: e :: rest => (Text.numeral? 16 [a, b, c, d]).map (·, e :: rest)
  | _ => none

/-- The second half of a surrogate pair written as an escape. -/
def lowHalf? : List Char → Option (Nat × List Char)
  | '\\' :: 'u' :: rest => match fourHex? rest with
    | some (n, rest') => if 0xDC00 ≤ n ∧ n < 0xE000 then some (n, rest') else none
    | none => none
  | _ => none

/-- The characters of a string after its opening mark. Half of a surrogate pair
on its own reads as the replacement character. -/
def readString (opening : List Char) : Nat → List Char → List Char → Read String
  | 0, _, _ => .error ⟨.unterminated, opening⟩
  | fuel + 1, cs, done => match cs with
    | [] => .error ⟨.unterminated, opening⟩
    | '"' :: rest => .ok (String.ofList done.reverse, rest)
    | '\\' :: rest => match rest with
      | [] => .error ⟨.unterminated, opening⟩
      | 'u' :: digits => match fourHex? digits with
        | none => .error ⟨.unicodeEscape, rest⟩
        | some (n, after) =>
          if 0xD800 ≤ n ∧ n < 0xDC00 then
            match lowHalf? after with
            | some (low, after') =>
              let c := Char.ofNat (0x10000 + (n - 0xD800) * 0x400 + (low - 0xDC00))
              readString opening fuel after' (c :: done)
            | none => readString opening fuel after ('\uFFFD' :: done)
          else if 0xDC00 ≤ n ∧ n < 0xE000 then readString opening fuel after ('\uFFFD' :: done)
          else readString opening fuel after (Char.ofNat n :: done)
      | c :: after => match simpleEscape? c with
        | some d => readString opening fuel after (d :: done)
        | none => .error ⟨.escape, cs⟩
    | c :: rest =>
      if c.toNat < 32 then .error ⟨.controlCharacter, cs⟩
      else readString opening fuel rest (c :: done)

/-- Digits after a point, when there is at least one. -/
def fraction (cs : List Char) : Option (List Char × List Char) :=
  match cs with
  | '.' :: rest =>
    let ds := rest.takeWhile Char.isDigit
    if ds.isEmpty then none else some (ds, rest.dropWhile Char.isDigit)
  | _ => none

/-- An exponent, when a letter and at least one digit are there. -/
def exponent (cs : List Char) : Option (Int × List Char) :=
  match cs with
  | e :: rest =>
    if e == 'e' || e == 'E' then
      let (sign, rest) := match rest with
        | '-' :: more => ((-1 : Int), more)
        | '+' :: more => (1, more)
        | more => (1, more)
      let ds := rest.takeWhile Char.isDigit
      if ds.isEmpty then none
      else some (sign * ((Text.numeral? 10 ds).getD 0 : Nat), rest.dropWhile Char.isDigit)
    else none
  | [] => none

/-- A number: an integer unless a fraction or an exponent follows. A leading
zero stands alone. -/
def readNumber (cs : List Char) : Option (Value × List Char) :=
  let (negative, body) := match cs with
    | '-' :: rest => (true, rest)
    | rest => (false, rest)
  let (whole, rest) := match body with
    | '0' :: rest => (['0'], rest)
    | rest => (rest.takeWhile Char.isDigit, rest.dropWhile Char.isDigit)
  if whole.isEmpty then none
  else
    let (digits, rest, isFloat) := match fraction rest with
      | some (ds, rest) => (ds, rest, true)
      | none => ([], rest, false)
    let (power, rest, isFloat) := match exponent rest with
      | some (e, rest) => (e, rest, true)
      | none => (0, rest, isFloat)
    if isFloat then
      let x := Decimal.read whole digits power
      some (.float (if negative then -x else x), rest)
    else
      let n : Int := (Text.numeral? 10 whole).getD 0
      some (.int (if negative then -n else n), rest)

/-- Words that are values. -/
def words : List (String × Value) :=
  [("null", .null), ("true", .bool true), ("false", .bool false), ("NaN", .float (0.0 / 0.0)),
    ("Infinity", .float (1.0 / 0.0)), ("-Infinity", .float (-1.0 / 0.0))]

def readWord (cs : List Char) : Option (Value × List Char) :=
  words.findSome? fun (w, v) =>
    if w.toList.isPrefixOf cs then some (v, cs.drop w.length) else none

mutual

def readValue : Nat → List Char → Read Value
  | 0, cs => .error ⟨.value, cs⟩
  | fuel + 1, cs => match cs with
    | '"' :: rest => match readString cs (rest.length + 1) rest [] with
      | .ok (s, rest) => .ok (.str s, rest)
      | .error e => .error e
    | '\x7b' :: rest => match skipBlanks rest with
      | '\x7d' :: rest => .ok (.mapping [], rest)
      | rest => readMembers fuel rest []
    | '[' :: rest => match skipBlanks rest with
      | ']' :: rest => .ok (.list [], rest)
      | rest => readItems fuel rest []
    | cs => match readWord cs with
      | some r => .ok r
      | none => match readNumber cs with
        | some r => .ok r
        | none => .error ⟨.value, cs⟩

def readMembers : Nat → List Char → List (Value × Value) → Read Value
  | 0, cs, _ => .error ⟨.value, cs⟩
  | fuel + 1, cs, done => match cs with
    | '"' :: rest => match readString cs (rest.length + 1) rest [] with
      | .error e => .error e
      | .ok (name, rest) => match skipBlanks rest with
        | ':' :: rest => match readValue fuel (skipBlanks rest) with
          | .error e => .error e
          | .ok (v, rest) =>
            let done := (.str name, v) :: done
            match skipBlanks rest with
            | '\x7d' :: rest => .ok (.mapping (Entries.ofPairs done.reverse), rest)
            | ',' :: rest => readMembers fuel (skipBlanks rest) done
            | rest => .error ⟨.comma, rest⟩
        | rest => .error ⟨.colon, rest⟩
    | cs => .error ⟨.propertyName, cs⟩

def readItems : Nat → List Char → List Value → Read Value
  | 0, cs, _ => .error ⟨.value, cs⟩
  | fuel + 1, cs, done => match readValue fuel cs with
    | .error e => .error e
    | .ok (v, rest) => match skipBlanks rest with
      | ']' :: rest => .ok (.list (v :: done).reverse, rest)
      | ',' :: rest => readItems fuel (skipBlanks rest) (v :: done)
      | rest => .error ⟨.comma, rest⟩

end

/-- The one value of a text. -/
def readAll (cs : List Char) : Except Refusal Value :=
  match cs with
  | '\uFEFF' :: _ => .error ⟨.unexpectedMark, cs⟩
  | cs => match readValue (2 * cs.length + 2) (skipBlanks cs) with
    | .error e => .error e
    | .ok (v, rest) => match skipBlanks rest with
      | [] => .ok v
      | rest => .error ⟨.extraData, rest⟩

/-- Where in a text a part that ends it begins, as line and column. -/
def locate (cs rest : List Char) : Nat × Nat :=
  let before := cs.take (cs.length - rest.length)
  (before.count '\n' + 1, (before.reverse.takeWhile (· != '\n')).length + 1)

/-- Reading a JSON document. -/
def read (text : String) : Except LocatedRefusal Value :=
  match readAll text.toList with
  | .ok v => .ok v
  | .error e =>
    let (line, column) := locate text.toList e.rest
    .error ⟨e.complaint, line, column⟩

end Cascade.Json
