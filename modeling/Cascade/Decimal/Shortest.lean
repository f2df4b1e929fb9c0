/-! The shortest decimal that reads back as a given binary number. A finite
number is `m * 2 ^ q`; the reals that round to it form an interval around it,
ends included exactly when `m` is even. The digits chosen lie on the coarsest
decimal grid with a point in that interval, and are the nearest such point. -/

namespace Cascade.Decimal

/-- A positive decimal: `digits * 10 ^ scale`. -/
structure Numeral where
  digits : Nat
  scale : Int

/-- A positive binary number `m * 2 ^ q`, with whether it is the least number
of its binade, below which the gap is half as wide. -/
structure Binary where
  m : Nat
  q : Int
  atBinadeStart : Bool

/-- `a * b ^ e` as a fraction, for an exponent of either sign. -/
def scaled (a b : Nat) (e : Int) : Nat × Nat :=
  if 0 ≤ e then (a * Nat.pow b e.toNat, 1) else (a, Nat.pow b (-e).toNat)

/-- The interval of reals that round to a number, in quarters of its unit. -/
def Binary.low (x : Binary) : Nat := 4 * x.m - (if x.atBinadeStart then 1 else 2)

def Binary.high (x : Binary) : Nat := 4 * x.m + 2

/-- Whether the grid point `c * 10 ^ s` lies in the interval of `x`. -/
def Binary.rounds (x : Binary) (c : Nat) (s : Int) : Bool :=
  let (cn, cd) := scaled c 10 s
  let (ln, ld) := scaled x.low 2 (x.q - 2)
  let (hn, hd) := scaled x.high 2 (x.q - 2)
  if x.m % 2 = 0 then ln * cd ≤ cn * ld && cn * hd ≤ hn * cd
  else ln * cd < cn * ld && cn * hd < hn * cd

/-- The nearer of the two neighbours of `x` on the grid of step `10 ^ s` that
lie in its interval; an even count wins a tie. -/
def Binary.onGrid? (x : Binary) (s : Int) : Option Nat :=
  let (vn, vd) := scaled x.m 2 x.q
  let (n, d) :=
    if 0 ≤ s then (vn, vd * Nat.pow 10 s.toNat) else (vn * Nat.pow 10 (-s).toNat, vd)
  let below := n / d
  match x.rounds below s && below != 0, x.rounds (below + 1) s with
  | false, false => none
  | true, false => some below
  | false, true => some (below + 1)
  | true, true =>
    let r := 2 * (n % d)
    if r < d || (r == d && below % 2 == 0) then some below else some (below + 1)

/-- The number of decimal digits of a natural number. -/
def width (n : Nat) : Nat := (Nat.toDigits 10 n).length

/-- The number of digits before the point: `x` is below `10 ^ x.magnitude`
and at least a tenth of it. -/
def Binary.magnitude (x : Binary) : Int :=
  let (n, d) := scaled x.m 2 x.q
  let guess : Int := (width n : Int) - width d
  let reached : Bool :=
    if 0 ≤ guess then d * Nat.pow 10 guess.toNat ≤ n else d ≤ n * Nat.pow 10 (-guess).toNat
  if reached then guess + 1 else guess

/-- Grids from coarse to fine, until one has a point in the interval. -/
def Binary.search (x : Binary) (top : Int) : Nat → Numeral
  | 0 => ⟨x.m, 0⟩
  | left + 1 =>
    let places : Int := 18 - (left + 1 : Nat)
    match x.onGrid? (top - places) with
    | some c => ⟨c, top - places⟩
    | none => x.search top left

def Binary.shortest (x : Binary) : Numeral := x.search x.magnitude 17

/-- Trailing zeros of the digits moved to the scale. -/
def Numeral.trim : Nat → Numeral → Numeral
  | 0, d => d
  | steps + 1, d =>
    if d.digits % 10 == 0 && d.digits != 0 then Numeral.trim steps ⟨d.digits / 10, d.scale + 1⟩ else d

/-- A double as sign and magnitude. -/
inductive Shape where
  | notANumber
  | infinite (negative : Bool)
  | zero (negative : Bool)
  | finite (negative : Bool) (x : Binary)

def shape (x : Float) : Shape :=
  let bits : Nat := x.toBits.toNat
  let negative := bits / Nat.pow 2 63 == 1
  let exponent : Nat := bits / Nat.pow 2 52 % Nat.pow 2 11
  let fraction : Nat := bits % Nat.pow 2 52
  if exponent == 2047 then
    if fraction == 0 then .infinite negative else .notANumber
  else if exponent == 0 then
    if fraction == 0 then .zero negative else .finite negative ⟨fraction, -1074, false⟩
  else .finite negative
    ⟨Nat.pow 2 52 + fraction, (exponent : Int) - 1075, fraction == 0 && 1 < exponent⟩

/-- The integer that a double is, when it is one. -/
def exactInt? (x : Float) : Option Int :=
  match shape x with
  | .zero _ => some 0
  | .finite negative b =>
    let (n, d) := scaled b.m 2 b.q
    if n % d == 0 then some (if negative then -Int.ofNat (n / d) else Int.ofNat (n / d)) else none
  | _ => none

end Cascade.Decimal
