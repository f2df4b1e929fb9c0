import Cascade.Value
import Cascade.Decimal.Text
import Cascade.Text.Quoted

/-! Values as text. `shown` is the form in which a value stands inside another
and in messages about it; `text` is the form on its own, which differs for
strings, times and nothing else. -/

namespace Cascade

open Text in
/-- Year, month and day with dashes. -/
def Date.iso (d : Date) : String :=
  let num (width n : Nat) := let s := toString n; repeated '0' (width - s.length) ++ s
  num 4 d.year ++ "-" ++ num 2 d.month ++ "-" ++ num 2 d.day

namespace Moment

def twoDigits (n : Nat) : String := if n < 10 then "0" ++ toString n else toString n

/-- The offset as sign, hours and minutes. -/
def offsetText : Option Int → String
  | none => ""
  | some m =>
    (if m < 0 then "-" else "+") ++ twoDigits (m.natAbs / 60) ++ ":" ++ twoDigits (m.natAbs % 60)

def iso (t : Moment) (separator : String) : String :=
  let micro := toString t.microsecond
  t.date.iso ++ separator ++ twoDigits t.hour ++ ":" ++ twoDigits t.minute ++ ":" ++
    twoDigits t.second ++
    (if t.microsecond == 0 then "" else "." ++ Text.repeated '0' (6 - micro.length) ++ micro) ++
    offsetText t.offset

/-- An offset as the call that makes it. -/
def offsetShown (m : Int) : String :=
  if m == 0 then "datetime.timezone.utc"
  else
    let days := Int.fdiv (m * 60) 86400
    let seconds := Int.fmod (m * 60) 86400
    let parts := (if days == 0 then [] else ["days=" ++ toString days]) ++
      (if seconds == 0 then [] else ["seconds=" ++ toString seconds])
    "datetime.timezone(datetime.timedelta(" ++ String.intercalate ", " parts ++ "))"

def shown (t : Moment) : String :=
  let fields := [t.date.year, t.date.month, t.date.day, t.hour, t.minute] ++
    (if t.second == 0 && t.microsecond == 0 then [] else [t.second]) ++
    (if t.microsecond == 0 then [] else [t.microsecond])
  let zone := match t.offset with
    | none => ""
    | some m => ", tzinfo=" ++ offsetShown m
  "datetime.datetime(" ++ String.intercalate ", " (fields.map toString) ++ zone ++ ")"

end Moment

namespace Value

def truthText (b : Bool) : String := if b then "True" else "False"

mutual

def shown : Value → String
  | .null => "None"
  | .bool b => truthText b
  | .int n => toString n
  | .float x => Decimal.text Decimal.plainSpelling x
  | .str s => Text.Quoted.ofString s
  | .date d => "datetime.date(" ++ toString d.year ++ ", " ++ toString d.month ++ ", " ++
      toString d.day ++ ")"
  | .moment t => t.shown
  | .bytes bs => Text.Quoted.ofBytes bs
  | .list items => "[" ++ String.intercalate ", " (shownItems items) ++ "]"
  | .tuple items => match items with
    | [v] => "(" ++ shown v ++ ",)"
    | items => "(" ++ String.intercalate ", " (shownItems items) ++ ")"
  | .mapping entries => "\x7b" ++ String.intercalate ", " (shownEntries entries) ++ "\x7d"
  | .object kind _ => match kind with
    | .moduleNamed name => "<module " ++ Text.Quoted.ofString name ++ ">"
    | .classNamed name => "<class '__main__." ++ name ++ "'>"
    | kind => "<" ++ (Value.object kind []).typeName ++ " object>"
  | .shared _ => "\x7b...\x7d"

def shownItems : List Value → List String
  | [] => []
  | v :: rest => shown v :: shownItems rest

def shownEntries : List (Value × Value) → List String
  | [] => []
  | (k, v) :: rest => (shown k ++ ": " ++ shown v) :: shownEntries rest

end

def text : Value → String
  | .str s => s
  | .date d => d.iso
  | .moment t => t.iso " "
  | v => v.shown

end Value

/-- The text of a value whose references are replaced by their values. -/
def Shared.text (store : Shared) (v : Value) : String := (store.expand v).text

def Shared.shown (store : Shared) (v : Value) : String := (store.expand v).shown

end Cascade
