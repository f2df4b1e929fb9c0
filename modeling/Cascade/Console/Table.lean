import Cascade.Text.Basic

/-! Tables on the console: a title over columns with a header. -/

namespace Cascade.Console

structure Table where
  title : String
  header : List String
  rows : List (List String)

namespace Table

variable (t : Table)

/-- The width of a column, which is that of its widest cell. -/
def columnWidth (i : Nat) : Nat :=
  (t.header :: t.rows).foldl (fun n row => max n (row.getD i "").length) 0

def widths : List Nat := (List.range t.header.length).map t.columnWidth

/-- The width with a blank on each side of a cell and a line on each side of a
column. -/
def width : Nat := t.widths.foldl (fun n w => n + w + 3) 1

/-- Words in lines of at most a width where that is possible. -/
def wrap (width : Nat) : List String → Option String → List String
  | [], line => line.toList
  | w :: rest, none => wrap width rest (some w)
  | w :: rest, some line =>
    if line.length + 1 + w.length ≤ width then wrap width rest (some (line ++ " " ++ w))
    else line :: wrap width rest (some w)

/-- The title in lines that are no wider than the table. -/
def titleLines : List String := wrap t.width (Text.fields ' ' t.title) none

def centred (width : Nat) (s : String) : String :=
  let space := width - s.length
  Text.repeated ' ' (space / 2) ++ s ++ Text.repeated ' ' (space - space / 2)

def rule (left middle right : String) (dash : Char) : String :=
  left ++ String.intercalate middle (t.widths.map fun w => Text.repeated dash (w + 2)) ++ right

def line (bar : String) (row : List String) : String :=
  bar ++ String.intercalate bar ((t.widths.zip row).map fun c =>
    " " ++ Text.padRight c.1 c.2 ++ " ") ++ bar

def lines : List String :=
  t.titleLines.map (centred t.width) ++
    [t.rule "┏" "┳" "┓" '━', t.line "┃" t.header, t.rule "┡" "╇" "┩" '━'] ++
    t.rows.map (t.line "│") ++ [t.rule "└" "┴" "┘" '─']

def text : String := String.join (t.lines.map (· ++ "\n"))

end Table

end Cascade.Console
