import Cascade.Value
import Cascade.Decimal.Text
import Cascade.Text.Basic

/-! The types of scalars. A plain scalar without a tag has the type whose
written forms include it: words for null and truth values, integers in four
bases and to base sixty, decimal fractions, and times. Anything else is text. -/

namespace Cascade.Yaml

inductive Tag where
  | null
  | bool
  | int
  | float
  | binary
  | timestamp
  | str
  | merge
  | value
  | seq
  | map
  | omap
  | pairs
  | set
  | other (name : String)
  deriving DecidableEq, Repr

namespace Tag

def standard : List (String × Tag) :=
  [("null", .null), ("bool", .bool), ("int", .int), ("float", .float), ("binary", .binary),
    ("timestamp", .timestamp), ("str", .str), ("merge", .merge), ("value", .value), ("seq", .seq),
    ("map", .map), ("omap", .omap), ("pairs", .pairs), ("set", .set)]

/-- The beginning of the names of standard types. -/
def domain : String := "tag:yaml.org,2002:"

def ofName (name : String) : Tag :=
  if Text.startsWith name domain then
    (standard.lookup (Text.drop domain.length name)).getD (.other name)
  else .other name

/-! ## Written forms -/

def isDigit (c : Char) : Bool := '0' ≤ c && c ≤ '9'

def isDigitOrMark (c : Char) : Bool := isDigit c || c == '_'

def unsigned : List Char → List Char
  | '-' :: rest => rest
  | '+' :: rest => rest
  | cs => cs

/-- Groups of one or two digits below sixty, each after a colon, and what
follows them. -/
def sexagesimal : List Char → List Char
  | ':' :: a :: b :: rest =>
    if '0' ≤ a && a ≤ '5' && isDigit b then sexagesimal rest
    else if isDigit a then sexagesimal (b :: rest)
    else ':' :: a :: b :: rest
  | [':', a] => if isDigit a then [] else [':', a]
  | cs => cs

def isInt (cs : List Char) : Bool :=
  match unsigned cs with
  | '0' :: 'b' :: rest => !rest.isEmpty && rest.all fun c => c == '0' || c == '1' || c == '_'
  | '0' :: 'x' :: rest =>
    !rest.isEmpty && rest.all fun c => (Text.hexValue? c).isSome || c == '_'
  | '0' :: rest => rest.all fun c => ('0' ≤ c && c ≤ '7') || c == '_'
  | c :: rest =>
    isDigit c &&
      match rest.dropWhile isDigitOrMark with
      | [] => true
      | more => (sexagesimal more).isEmpty
  | [] => false

/-- An exponent with a sign and at least one digit, or nothing. -/
def isExponentOrEnd : List Char → Bool
  | [] => true
  | e :: s :: d :: rest =>
    (e == 'e' || e == 'E') && (s == '-' || s == '+') && isDigit d && rest.all isDigit
  | _ => false

def isFloat (cs : List Char) : Bool :=
  match cs with
  | '.' :: d :: rest =>
    (isDigit d && isExponentOrEnd (rest.dropWhile isDigitOrMark)) ||
      ["inf", "Inf", "INF", "nan", "NaN", "NAN"].contains (String.ofList (d :: rest))
  | cs =>
    match unsigned cs with
    | '.' :: rest => ["inf", "Inf", "INF"].contains (String.ofList rest)
    | d :: rest =>
      isDigit d &&
        match rest.dropWhile isDigitOrMark with
        | '.' :: rest => isExponentOrEnd (rest.dropWhile isDigitOrMark)
        | ':' :: rest => match sexagesimal (':' :: rest) with
          | '.' :: rest => rest.all isDigitOrMark
          | _ => false
        | _ => false
    | [] => false

/-- The parts of a time: year, month, day; hour, minute, second and the digits
of a fraction; the offset from universal time in minutes. -/
structure TimeParts where
  year : Nat
  month : Nat
  day : Nat
  clock : Option (Nat × Nat × Nat × List Char) := none
  offset : Option Int := none

def natOf (cs : List Char) : Nat := (Text.numeral? 10 cs).getD 0

/-- One or two digits. -/
def oneOrTwo? : List Char → Option (Nat × List Char)
  | a :: b :: rest =>
    if isDigit a then
      if isDigit b then some (natOf [a, b], rest) else some (natOf [a], b :: rest)
    else none
  | [a] => if isDigit a then some (natOf [a], []) else none
  | [] => none

def exactlyTwo? : List Char → Option (Nat × List Char)
  | a :: b :: rest => if isDigit a && isDigit b then some (natOf [a, b], rest) else none
  | _ => none

def char? (c : Char) : List Char → Option (List Char)
  | d :: rest => if c == d then some rest else none
  | [] => none

def isBlank (c : Char) : Bool := c == ' ' || c == '\t'

/-- The offset at the end of a time: `Z`, or hours and perhaps minutes. -/
def offset? (cs : List Char) : Option (Option Int) :=
  match cs with
  | [] => some none
  | cs => match cs.dropWhile isBlank with
    | ['Z'] => some (some 0)
    | s :: rest =>
      if s == '-' || s == '+' then do
        let (hours, rest) ← oneOrTwo? rest
        let minutes ← match rest with
          | [] => some 0
          | ':' :: rest => match exactlyTwo? rest with
            | some (n, []) => some n
            | _ => none
          | _ => none
        let total : Int := hours * 60 + minutes
        return some (if s == '-' then -total else total)
      else none
    | [] => none

def clock? (cs : List Char) : Option ((Nat × Nat × Nat × List Char) × Option Int) := do
  let (hour, rest) ← oneOrTwo? cs
  let (minute, rest) ← exactlyTwo? (← char? ':' rest)
  let (second, rest) ← exactlyTwo? (← char? ':' rest)
  let (fraction, rest) := match rest with
    | '.' :: rest => (rest.takeWhile isDigit, rest.dropWhile isDigit)
    | rest => ([], rest)
  let offset ← offset? rest
  return ((hour, minute, second, fraction), offset)

/-- A time as the constructor reads it: month and day of one or two digits. -/
def timeParts? (cs : List Char) : Option TimeParts := do
  let digits := cs.take 4
  if digits.length == 4 && digits.all isDigit then
    let (month, rest) ← oneOrTwo? (← char? '-' (cs.drop 4))
    let (day, rest) ← oneOrTwo? (← char? '-' rest)
    let clock ← match rest with
      | [] => some none
      | c :: more =>
        if c == 'T' || c == 't' then (clock? more).map some
        else if isBlank c then (clock? (more.dropWhile isBlank)).map some
        else none
    match clock with
    | none => return { year := natOf digits, month, day }
    | some (clock, offset) => return { year := natOf digits, month, day, clock := some clock, offset }
  else none

/-- A plain scalar is a time when it has a clock, or a date of ten characters. -/
def isTimestamp (cs : List Char) : Bool :=
  match timeParts? cs with
  | some p => p.clock.isSome || cs.length == 10
  | none => false

/-- The type of a plain scalar. -/
def ofPlain (text : String) : Tag :=
  let cs := text.toList
  if ["yes", "Yes", "YES", "no", "No", "NO", "true", "True", "TRUE", "false", "False", "FALSE",
      "on", "On", "ON", "off", "Off", "OFF"].contains text then .bool
  else if isFloat cs then .float
  else if isInt cs then .int
  else if text == "<<" then .merge
  else if ["~", "null", "Null", "NULL", ""].contains text then .null
  else if isTimestamp cs then .timestamp
  else if text == "=" then .value
  else .str

/-! ## Values of scalars -/

def withoutMarks (cs : List Char) : List Char := cs.filter (· != '_')

def sexagesimalValue (parts : List Nat) : Nat := parts.foldl (fun n d => n * 60 + d) 0

/-- Characters without the blanks around them. -/
def stripped (cs : List Char) : List Char :=
  ((cs.dropWhile Char.isWhitespace).reverse.dropWhile Char.isWhitespace).reverse

/-- The letters that mark a base after a zero. -/
def baseLetters : Nat → List Char
  | 2 => ['b', 'B']
  | 8 => ['o', 'O']
  | 16 => ['x', 'X']
  | _ => []

def withoutBaseMark (base : Nat) (cs : List Char) : List Char :=
  match cs with
  | '0' :: c :: rest => if (baseLetters base).contains c then rest else cs
  | cs => cs

/-- Digits of a base, which may have its mark and a sign in front. -/
def numeralOf (base : Nat) (cs : List Char) : Except Fault Int :=
  let (negative, ds) := match stripped cs with
    | '-' :: rest => (true, rest)
    | '+' :: rest => (false, rest)
    | rest => (false, rest)
  let ds := withoutBaseMark base ds
  match ds, Text.numeral? base ds with
  | _ :: _, some n => .ok (if negative then -(n : Int) else n)
  | _, _ => .error .badValue

def intOf (text : String) : Except Fault Int :=
  let cs := withoutMarks text.toList
  let sign : Int := if cs.head? == some '-' then -1 else 1
  match cs with
  | [] => .error .noItem
  | cs =>
    match unsigned cs with
    | [] => .error .noItem
    | ['0'] => .ok 0
    | '0' :: 'b' :: rest => (numeralOf 2 rest).map (sign * ·)
    | '0' :: 'x' :: rest => (numeralOf 16 rest).map (sign * ·)
    | '0' :: rest => (numeralOf 8 ('0' :: rest)).map (sign * ·)
    | cs =>
      if cs.contains ':' then
        match (cs.splitOn ':').mapM fun part => (numeralOf 10 part).toOption with
        | some parts => .ok (sign * parts.foldl (fun n d => n * 60 + d) 0)
        | none => .error .badValue
      else (numeralOf 10 cs).map (sign * ·)

/-- A decimal with optional point and exponent, or a word for a number that is
not finite, in any case. -/
def decimalOf (cs : List Char) : Except Fault Float :=
  let (negative, body) := match stripped cs with
    | '-' :: rest => (true, rest)
    | rest => (false, unsigned rest)
  let signed (x : Float) : Float := if negative then -x else x
  let word := Text.lowerAscii (String.ofList body)
  if word == "inf" || word == "infinity" then .ok (signed (1.0 / 0.0))
  else if word == "nan" then .ok (0.0 / 0.0)
  else
    let whole := body.takeWhile isDigit
    let rest := body.dropWhile isDigit
    let (fraction, rest) := match rest with
      | '.' :: rest => (rest.takeWhile isDigit, rest.dropWhile isDigit)
      | rest => ([], rest)
    if whole.isEmpty && fraction.isEmpty then .error .badValue
    else match rest with
      | [] => .ok (signed (Decimal.read whole fraction 0))
      | e :: power =>
        if (e == 'e' || e == 'E') && stripped power == power then
          (numeralOf 10 power).map fun n => signed (Decimal.read whole fraction n)
        else .error .badValue

/-- The value to base sixty, the last group weighing one. -/
def sexagesimalFloat : List Float → Float → Float → Float
  | [], _, total => total
  | d :: rest, base, total => sexagesimalFloat rest (base * 60.0) (total + d * base)

def floatOf (text : String) : Except Fault Float :=
  let cs := (Text.lowerAscii (String.ofList (withoutMarks text.toList))).toList
  let negative := cs.head? == some '-'
  let signed (x : Float) : Float := if negative then -x else x
  match cs with
  | [] => .error .noItem
  | cs =>
    let body := unsigned cs
    if body == ".inf".toList then .ok (signed (1.0 / 0.0))
    else if body == ".nan".toList then .ok (0.0 / 0.0)
    else if body.contains ':' then
      match (body.splitOn ':').mapM fun part => (decimalOf part).toOption with
      | some parts => .ok (signed (sexagesimalFloat parts.reverse 1.0 0.0))
      | none => .error .badValue
    else (decimalOf body).map signed

def boolOf (text : String) : Except Fault Bool :=
  let word := Text.lowerAscii text
  if ["yes", "true", "on"].contains word then .ok true
  else if ["no", "false", "off"].contains word then .ok false
  else .error .noKey

def isLeap (year : Nat) : Bool := year % 4 == 0 && (year % 100 != 0 || year % 400 == 0)

def daysIn (year month : Nat) : Nat :=
  match month with
  | 2 => if isLeap year then 29 else 28
  | 4 | 6 | 9 | 11 => 30
  | _ => 31

def isDate (d : Date) : Bool :=
  1 ≤ d.year && 1 ≤ d.month && d.month ≤ 12 && 1 ≤ d.day && d.day ≤ daysIn d.year d.month

def timeOf (text : String) : Except Fault Value :=
  match timeParts? text.toList with
  | none => .error .noMember
  | some p =>
    let date : Date := ⟨p.year, p.month, p.day⟩
    if !isDate date then .error .badValue
    else match p.clock with
      | none => .ok (.date date)
      | some (hour, minute, second, fraction) =>
        let micro := natOf ((fraction ++ List.replicate 6 '0').take 6)
        let inDay := match p.offset with
          | none => true
          | some m => m.natAbs < 24 * 60
        if hour < 24 && minute < 60 && second < 60 && inDay then
          .ok (.moment ⟨date, hour, minute, second, micro, p.offset⟩)
        else .error .badValue

/-- The value of a digit of base 64. -/
def base64Value? (c : Char) : Option Nat :=
  if 'A' ≤ c ∧ c ≤ 'Z' then some (c.toNat - 65)
  else if 'a' ≤ c ∧ c ≤ 'z' then some (c.toNat - 71)
  else if '0' ≤ c ∧ c ≤ '9' then some (c.toNat + 4)
  else if c = '+' then some 62
  else if c = '/' then some 63
  else none

/-- Bytes from digits of base 64; other characters are passed over and enough
padding ends the text. -/
def base64Bytes : List Char → Nat → Nat → Nat → List UInt8 → Option (List UInt8)
  | [], place, _, _, done => if place == 0 then some done.reverse else none
  | c :: rest, place, pads, held, done =>
    if c == '=' then
      if 2 ≤ place && 4 ≤ place + pads + 1 then some done.reverse
      else base64Bytes rest place (if 2 ≤ place then pads + 1 else pads) held done
    else match base64Value? c with
      | none => base64Bytes rest place pads held done
      | some v => match place with
        | 0 => base64Bytes rest 1 0 v done
        | 1 => base64Bytes rest 2 0 (v % 16) ((held * 4 + v / 16).toUInt8 :: done)
        | 2 => base64Bytes rest 3 0 (v % 4) ((held * 16 + v / 4).toUInt8 :: done)
        | _ => base64Bytes rest 0 0 0 ((held * 64 + v).toUInt8 :: done)

/-- The value of a scalar of a type, none for a type that scalars do not have. -/
def scalarValue (tag : Tag) (text : String) : Option (Except Fault Value) :=
  match tag with
  | .null => some (.ok .null)
  | .bool => some ((boolOf text).map .bool)
  | .int => some ((intOf text).map .int)
  | .float => some ((floatOf text).map .float)
  | .timestamp => some (timeOf text)
  | .str => some (.ok (.str text))
  | _ => none

end Tag

end Cascade.Yaml
