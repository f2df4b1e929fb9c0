/-! Text as a list of characters. Names, paths and patterns are taken apart at
single separators and compared by their beginnings and ends; every function
here is the corresponding operation on `String.toList`, so that statements
about text reduce to statements about lists. -/

namespace Cascade.Text

/-- The parts of a text between the occurrences of a separator. A text without
the separator is its own only part. -/
def fields (sep : Char) (s : String) : List String :=
  (s.toList.splitOn sep).map String.ofList

def startsWith (s start : String) : Bool := start.toList.isPrefixOf s.toList

def endsWith (s ending : String) : Bool := ending.toList.isSuffixOf s.toList

/-- The text without its first `n` characters. -/
def drop (n : Nat) (s : String) : String := String.ofList (s.toList.drop n)

def take (n : Nat) (s : String) : String := String.ofList (s.toList.take n)

/-- The text without the copies of `c` that it starts with. -/
def dropLeading (c : Char) (s : String) : String := String.ofList (s.toList.dropWhile (· == c))

/-- The text with every `old` written as `new`. -/
def swap (old new : Char) (s : String) : String :=
  String.ofList (s.toList.map fun c => if c == old then new else c)

/-- The text before and after the last separator, when there is one. -/
def cutLast (sep : Char) (s : String) : Option (String × String) :=
  let back := s.toList.reverse
  if back.contains sep then
    some (String.ofList ((back.dropWhile (· != sep)).drop 1).reverse,
      String.ofList (back.takeWhile (· != sep)).reverse)
  else none

/-- The text before and after the first separator, when there is one. -/
def cutFirst (sep : Char) (s : String) : Option (String × String) :=
  if s.toList.contains sep then
    some (String.ofList (s.toList.takeWhile (· != sep)),
      String.ofList ((s.toList.dropWhile (· != sep)).drop 1))
  else none

def hasInfix (needle : List Char) : List Char → Bool
  | [] => needle.isEmpty
  | c :: rest => needle.isPrefixOf (c :: rest) || hasInfix needle rest

/-- Whether `needle` occurs in the text. -/
def contains (s needle : String) : Bool := hasInfix needle.toList s.toList

def repeated (c : Char) (n : Nat) : String := String.ofList (List.replicate n c)

/-- Padding on the right up to a width. -/
def padRight (width : Nat) (s : String) : String := s ++ repeated ' ' (width - s.length)

def padLeft (width : Nat) (s : String) : String := repeated ' ' (width - s.length) ++ s

/-- Hexadecimal digits in lower case, with zeros up to a width. -/
def hex (width n : Nat) : String :=
  let ds := Nat.toDigits 16 n
  String.ofList (List.replicate (width - ds.length) '0' ++ ds)

def upperAscii (s : String) : String := String.ofList (s.toList.map Char.toUpper)

def lowerAscii (s : String) : String := String.ofList (s.toList.map Char.toLower)

/-- Carriage returns, alone or before a line feed, read as line feeds. -/
def unifyLineEnds : List Char → List Char
  | [] => []
  | '\r' :: '\n' :: rest => '\n' :: unifyLineEnds rest
  | '\r' :: rest => '\n' :: unifyLineEnds rest
  | c :: rest => c :: unifyLineEnds rest

/-- The value of a hexadecimal digit. -/
def hexValue? (c : Char) : Option Nat :=
  if '0' ≤ c ∧ c ≤ '9' then some (c.toNat - 48)
  else if 'a' ≤ c ∧ c ≤ 'f' then some (c.toNat - 87)
  else if 'A' ≤ c ∧ c ≤ 'F' then some (c.toNat - 55)
  else none

/-- The number that digits of a base below 17 spell, none when one is no digit. -/
def numeral? (base : Nat) (cs : List Char) : Option Nat :=
  cs.foldlM (fun n c => match hexValue? c with
    | some d => if d < base then some (n * base + d) else none
    | none => none) 0

@[simp] theorem fields_ne_nil (sep : Char) (s : String) : fields sep s ≠ [] := by
  simp [fields, List.splitOn_ne_nil]

end Cascade.Text
