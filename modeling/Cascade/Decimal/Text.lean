import Cascade.Decimal.Shortest
import Cascade.Text.Basic

/-! The written form of floating-point numbers: the fewest digits that read
back, positional from a ten-thousandth up to ten to the sixteenth and with an
exponent outside. An integral number keeps a zero after the point. -/

namespace Cascade.Decimal

/-- The spellings that differ between written formats. -/
structure Spelling where
  notANumber : String
  infinity : String

/-- Digits with the point after the first `point` of them. -/
def positional (ds : List Char) (point : Int) : List Char :=
  if point ≤ 0 then '0' :: '.' :: (List.replicate (-point).toNat '0' ++ ds)
  else
    let n := point.toNat
    if ds.length ≤ n then ds ++ List.replicate (n - ds.length) '0' ++ ['.', '0']
    else ds.take n ++ '.' :: ds.drop n

/-- An exponent with its sign and at least two digits. -/
def exponent (e : Int) : List Char :=
  let ds := Nat.toDigits 10 e.natAbs
  (if e < 0 then '-' else '+') :: (List.replicate (2 - ds.length) '0' ++ ds)

def scientific (ds : List Char) (point : Int) : List Char :=
  let lead := match ds with
    | d :: e :: rest => d :: '.' :: e :: rest
    | short => short
  lead ++ 'e' :: exponent (point - 1)

def magnitudeText (x : Binary) : List Char :=
  let d := Numeral.trim 20 x.shortest
  let ds := Nat.toDigits 10 d.digits
  let point : Int := ds.length + d.scale
  if -4 < point && point ≤ 16 then positional ds point else scientific ds point

/-- The text of a number in a format with the given special spellings. -/
def text (sp : Spelling) (x : Float) : String :=
  let signed (negative : Bool) (cs : List Char) := String.ofList (if negative then '-' :: cs else cs)
  match shape x with
  | .notANumber => sp.notANumber
  | .infinite negative => signed negative sp.infinity.toList
  | .zero negative => signed negative ['0', '.', '0']
  | .finite negative b => signed negative (magnitudeText b)

/-- The spelling in messages. -/
def plainSpelling : Spelling := ⟨"nan", "inf"⟩

/-- The decimal number with the given digits before and after the point and
exponent, correctly rounded. -/
def read (whole fraction : List Char) (exponent : Int) : Float :=
  let m := (Text.numeral? 10 (whole ++ fraction)).getD 0
  let e := exponent - fraction.length
  if m == 0 then 0.0
  else if 400 < e + (whole ++ fraction).length then 1.0 / 0.0
  else if e + (whole ++ fraction).length < -400 then 0.0
  else if 0 ≤ e then Float.ofScientific m false e.toNat
  else Float.ofScientific m true (-e).toNat

end Cascade.Decimal
