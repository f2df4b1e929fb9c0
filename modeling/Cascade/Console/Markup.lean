import Cascade.Fault
import Cascade.Text.Basic

/-! Text with marks of style in brackets, as the console reads it. A mark begins
with a small letter or one of three signs; a backslash before it takes its
meaning away. Styles are not shown, so opening and closing marks are left out,
but a closing mark must match an open one. Names between colons stand for
pictures. A line may be of any length. -/

namespace Cascade

namespace Console

/-- A part of console text: text as it stands, or a mark after some backslashes. -/
inductive Piece where
  | text (cs : List Char)
  | mark (slashes : Nat) (name : List Char)

def startsMark (c : Char) : Bool := ('a' ≤ c && c ≤ 'z') || c == '#' || c == '/' || c == '@'

/-- Whether a character is no bracket. -/
def inMark (c : Char) : Bool := c != '[' && c != ']'

/-- The inside of a mark that a text begins with, and what follows it. -/
def mark? : List Char → Option (List Char × List Char)
  | '[' :: c :: rest =>
    if startsMark c then match rest.dropWhile inMark with
      | ']' :: after => some (c :: rest.takeWhile inMark, after)
      | _ => none
    else none
  | _ => none

/-- The pieces of a text. `held` is text that has been read, last character
first, and `slashes` is the number of backslashes after it. -/
def piecesFrom : Nat → List Char → Nat → List Char → List Piece
  | 0, _, _, _ => []
  | _, held, slashes, [] => [.text (held.reverse ++ List.replicate slashes '\\')]
  | fuel + 1, held, slashes, c :: rest =>
    if c == '\\' then piecesFrom fuel held (slashes + 1) rest
    else match mark? (c :: rest) with
      | some (name, after) => .text held.reverse :: .mark slashes name :: piecesFrom fuel [] 0 after
      | none => piecesFrom fuel (c :: (List.replicate slashes '\\' ++ held)) 0 rest

def pieces (s : String) : List Piece := piecesFrom (s.length + 1) [] 0 s.toList

/-- The text without the backslashes in front of brackets. -/
def unescaped : List Char → List Char
  | '\\' :: '[' :: rest => '[' :: unescaped rest
  | c :: rest => c :: unescaped rest
  | [] => []

/-- Short names of styles. -/
def styleNames : List (String × String) :=
  [("d", "dim"), ("b", "bold"), ("i", "italic"), ("u", "underline"), ("r", "reverse"),
    ("c", "conceal"), ("s", "strike"), ("uu", "underline2"), ("o", "overline")]

/-- Characters between words, of any script. -/
def isSpace (c : Char) : Bool :=
  let n := c.toNat
  (9 ≤ n && n ≤ 13) || (28 ≤ n && n ≤ 32) || (0x2000 ≤ n && n ≤ 0x200a) ||
    [0x85, 0xa0, 0x1680, 0x2028, 0x2029, 0x202f, 0x205f, 0x3000].contains n

def trimmed (cs : List Char) : List Char :=
  ((cs.dropWhile isSpace).reverse.dropWhile isSpace).reverse

/-- The name of a style without differences in spelling. -/
def styleName (cs : List Char) : String :=
  let name := String.ofList ((trimmed cs).map Char.toLower)
  (styleNames.lookup name).getD name

/-- A part of a piece: a character, or a name between colons. -/
inductive Part where
  | char (c : Char)
  | code (name : List Char)

def Part.written : Part → List Char
  | .char c => [c]
  | .code name => ':' :: (name ++ [':'])

/-- The parts of a text. There is no blank in a name. `name` is what has been read
since an opening colon, last character first. -/
def parts : Option (List Char) → List Char → List Part
  | none, [] => []
  | some name, [] => (':' :: name.reverse).map .char
  | none, c :: rest => if c == ':' then parts (some []) rest else .char c :: parts none rest
  | some name, c :: rest =>
    if c == ':' then .code name.reverse :: parts none rest
    else if isSpace c then (':' :: (name.reverse ++ [c])).map .char ++ parts none rest
    else parts (some (c :: name)) rest

/-- Characters that only control a terminal. -/
def isControl (c : Char) : Bool := ['\x07', '\x08', '\x0b', '\x0c', '\r'].contains c

/-- The signs that tell how a text is to be read. -/
def isSign (c : Char) : Bool := c == '[' || c == '\\' || c == ':'

/-- A mark that is open. If it is an action, what stands after the equals sign
belongs to it. -/
structure Opened where
  name : String
  parameters : List Char

end Console

/-- What a console knows about names and characters. By default styles differ if
their names do, apart from short names, small letters and blanks; all parameters
can be read; there are no pictures; and all characters take one column. -/
structure Console where
  /-- The one name of a style. -/
  style : List Char → String := Console.styleName
  /-- Whether the parameters of an action can be read when it is closed. -/
  readable : List Char → Bool := fun _ => true
  /-- The picture for a name between colons. -/
  picture? : List Char → Option (List Char) := fun _ => none
  /-- A picture is not read again. -/
  picture_plain : ∀ name picture, picture? name = some picture →
    ∀ c ∈ picture, Console.isSign c = false := by simp
  /-- How many columns a character takes. -/
  width : Char → Nat := fun _ => 1

namespace Console

variable (console : Console)

/-- Whether a closing mark is for an open one; without a name it is for any. -/
def closes (name : List Char) (o : Opened) : Bool :=
  (trimmed name).isEmpty || o.name == console.style (trimmed name)

/-- The open marks after one more; the last one comes first. A closing mark begins
with a slash and closes the last open one that it is for; an action begins with an
at sign. -/
def follow (opened : List Opened) (mark : List Char) : Except Fault (List Opened) :=
  match mark.takeWhile (· != '=') with
  | '/' :: name =>
    match opened.find? (console.closes name) with
    | some o =>
      if o.parameters.isEmpty || console.readable o.parameters then
        .ok (opened.eraseP (console.closes name))
      else .error .badMarkup
    | none => .error .badMarkup
  | name =>
    let parameters := if mark.head? == some '@' then (mark.dropWhile (· != '=')).drop 1 else []
    .ok (⟨console.style name, parameters⟩ :: opened)

/-- What is shown of a part. -/
def pictured : Part → List Char
  | .char c => [c]
  | .code name => (console.picture? name).getD (Part.written (.code name))

/-- What is shown of a piece that is text. -/
def plain (cs : List Char) : List Char :=
  ((parts none (unescaped cs)).flatMap console.pictured).filter (!isControl ·)

/-- The text of pieces when some marks are open. Half of the backslashes before a
mark are text, and an odd one makes the mark text. -/
def textOf : List Piece → List Opened → Except Fault (List Char)
  | [], _ => .ok []
  | .text cs :: rest, opened => do return console.plain cs ++ (← textOf rest opened)
  | .mark slashes name :: rest, opened => do
    let kept := List.replicate (slashes / 2) '\\'
    if slashes % 2 == 1 then
      return kept ++ console.plain ('[' :: (name ++ [']'])) ++ (← textOf rest opened)
    else return kept ++ (← textOf rest (← console.follow opened name))

/-- Tabs as blanks up to the next of the columns that are multiples of eight. -/
def expandTabs : Nat → List Char → List Char
  | _, [] => []
  | column, c :: rest =>
    if c == '\t' then
      let width := 8 - column % 8
      List.replicate width ' ' ++ expandTabs (column + width) rest
    else if c == '\n' then c :: expandTabs 0 rest
    else c :: expandTabs (column + console.width c) rest

/-- What the console shows for a text with marks. -/
def shown (s : String) : Except Fault String := do
  return String.ofList (console.expandTabs 0 (← console.textOf (pieces s) []))

end Console

end Cascade
