import Cascade.Value
import Cascade.Decimal.Text
import Cascade.Text.Basic

/-! Writing JSON text, on one line or indented. Characters outside ASCII are
written as escapes, in pairs of surrogates above the basic plane; numbers that
are not finite are written as words. -/

namespace Cascade.Json

def spelling : Decimal.Spelling := ⟨"NaN", "Infinity"⟩

def unicodeEscape (n : Nat) : List Char := '\\' :: 'u' :: (Text.hex 4 n).toList

def escape (c : Char) : List Char :=
  match c with
  | '"' => ['\\', '"']
  | '\\' => ['\\', '\\']
  | '\n' => ['\\', 'n']
  | '\r' => ['\\', 'r']
  | '\t' => ['\\', 't']
  | '\x08' => ['\\', 'b']
  | '\x0c' => ['\\', 'f']
  | c =>
    let n := c.toNat
    if 32 ≤ n && n < 127 then [c]
    else if n < 0x10000 then unicodeEscape n
    else unicodeEscape (0xD800 + (n - 0x10000) / 0x400) ++
      unicodeEscape (0xDC00 + (n - 0x10000) % 0x400)

def quoted (s : String) : String := String.ofList ('"' :: (s.toList.flatMap escape ++ ['"']))

/-- A scalar that may stand as a member name, in the spelling it has there. -/
def keyText : Value → Except Fault String
  | .str s => .ok s
  | .int n => .ok (toString n)
  | .float x => .ok (Decimal.text spelling x)
  | .bool b => .ok (if b then "true" else "false")
  | .null => .ok "null"
  | _ => .error .unsupported

/-- Line breaks and separators: none for a text on one line, else the number of
blanks by which each level is indented. -/
structure Layout where
  indent : Option Nat := none

def Layout.newline (l : Layout) (level : Nat) : String :=
  match l.indent with
  | none => ""
  | some n => "\n" ++ Text.repeated ' ' (n * level)

def Layout.separator (l : Layout) (level : Nat) : String :=
  match l.indent with
  | none => ", "
  | some _ => "," ++ l.newline level

/-- Parts between brackets. -/
def Layout.enclose (l : Layout) (level : Nat) (opening closing : String) (parts : List String) :
    String :=
  if parts.isEmpty then opening ++ closing
  else opening ++ l.newline (level + 1) ++ String.intercalate (l.separator (level + 1)) parts ++
    l.newline level ++ closing

mutual

def write (l : Layout) (level : Nat) : Value → Except Fault String
  | .null => .ok "null"
  | .bool b => .ok (if b then "true" else "false")
  | .int n => .ok (toString n)
  | .float x => .ok (Decimal.text spelling x)
  | .str s => .ok (quoted s)
  | .list items | .tuple items => match writeItems l (level + 1) items with
    | .ok parts => .ok (l.enclose level "[" "]" parts)
    | .error e => .error e
  | .mapping entries => match writeEntries l (level + 1) entries with
    | .ok parts => .ok (l.enclose level "\x7b" "\x7d" parts)
    | .error e => .error e
  | _ => .error .unsupported

def writeItems (l : Layout) (level : Nat) : List Value → Except Fault (List String)
  | [] => .ok []
  | v :: rest => match write l level v with
    | .error e => .error e
    | .ok part => match writeItems l level rest with
      | .error e => .error e
      | .ok parts => .ok (part :: parts)

def writeEntries (l : Layout) (level : Nat) : List (Value × Value) → Except Fault (List String)
  | [] => .ok []
  | (k, v) :: rest => match keyText k with
    | .error e => .error e
    | .ok name => match write l level v with
      | .error e => .error e
      | .ok part => match writeEntries l level rest with
        | .error e => .error e
        | .ok parts => .ok ((quoted name ++ ": " ++ part) :: parts)

end

/-- A document on one line. -/
def compact (v : Value) : Except Fault String := write ⟨none⟩ 0 v

/-- A document with two blanks of indentation for each level. -/
def indented (v : Value) : Except Fault String := write ⟨some 2⟩ 0 v

end Cascade.Json
