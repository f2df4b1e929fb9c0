import Cascade.Text.Basic
import Cascade.Text.Printable

/-! Quoted text, as messages show it. The quotation mark is an apostrophe
unless the text has apostrophes and no double quotes; the mark, backslashes
and invisible characters inside are written as escapes. -/

namespace Cascade.Text.Quoted

/-- The quotation mark for a text. -/
def mark (cs : List Char) : Char :=
  if cs.contains '\'' && !cs.contains '"' then '"' else '\''

/-- A character by its number, in two, four or eight digits. -/
def byNumber (c : Char) : List Char :=
  if c.toNat < 0x100 then '\\' :: 'x' :: (hex 2 c.toNat).toList
  else if c.toNat < 0x10000 then '\\' :: 'u' :: (hex 4 c.toNat).toList
  else '\\' :: 'U' :: (hex 8 c.toNat).toList

def escape (quote c : Char) : List Char :=
  if c == quote || c == '\\' then ['\\', c]
  else if c == '\t' then ['\\', 't']
  else if c == '\n' then ['\\', 'n']
  else if c == '\r' then ['\\', 'r']
  else if isPrintable c then [c]
  else byNumber c

def encode (cs : List Char) : List Char :=
  mark cs :: (cs.flatMap (escape (mark cs)) ++ [mark cs])

def ofString (s : String) : String := String.ofList (encode s.toList)

/-- A text with every character that is not ASCII given by its number. -/
def asciiOnly (s : String) : String :=
  String.ofList (s.toList.flatMap fun c => if c.toNat < 128 then [c] else byNumber c)

/-- A byte in a quoted byte string. -/
def escapeByte (quote : Char) (b : UInt8) : List Char :=
  let c := Char.ofNat b.toNat
  if c == quote || c == '\\' then ['\\', c]
  else if c == '\t' then ['\\', 't']
  else if c == '\n' then ['\\', 'n']
  else if c == '\r' then ['\\', 'r']
  else if 32 ≤ b.toNat && b.toNat < 127 then [c]
  else '\\' :: 'x' :: (hex 2 b.toNat).toList

/-- A byte string: a `b` and the bytes in quotation marks. -/
def ofBytes (bs : List UInt8) : String :=
  let quote := mark (bs.map fun b => Char.ofNat b.toNat)
  String.ofList ('b' :: quote :: (bs.flatMap (escapeByte quote) ++ [quote]))

end Cascade.Text.Quoted
