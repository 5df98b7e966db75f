import BehaviorTree.Decimal.Binary

/-! # Shortest decimals

The shortest decimal of a binary number is the one with the fewest digits among those that read
back as the number, and of these the one nearest to it. Reading back means to lie in the interval
of reals that round to the number, whose ends belong to it when the mantissa is even.

`shortest` looks for it on the grids of multiples of `10 ^ k`, from a grid coarser than the
number downwards: on the first grid with a point in the interval, one of the number's two
neighbours on the grid is such a point. `Layout` says how the digits are then written. -/

namespace BehaviorTree.Decimal

/-- The decimal `digits * 10 ^ exponent`. -/
structure Digits where
  digits : Nat
  exponent : Int
deriving DecidableEq

/-- Where a number that lies halfway between two decimals goes. -/
inductive Tie
  | toEven
  | up
deriving DecidableEq

namespace Magnitude

/-- The number, and the ends of the interval that rounds to it, in quarters of the unit in the
last place. -/
def quarters (m : Magnitude) : Nat × Nat × Nat :=
  (4 * m.mantissa - (if m.lowest then 1 else 2), 4 * m.mantissa, 4 * m.mantissa + 2)

/-- Factors `(a, b)` with `quarters * a` and `points * b` on one scale, for the points of the
grid `10 ^ k`. -/
def scales (m : Magnitude) (k : Int) : Nat × Nat :=
  let e := m.exponent - 2
  (twoTo e.toNat * tenTo (-k).toNat, tenTo k.toNat * twoTo (-e).toNat)

/-- Whether a point of the grid `10 ^ k` rounds to the number. -/
def covers (m : Magnitude) (k : Int) (point : Nat) : Bool :=
  let (low, _, high) := m.quarters
  let (a, b) := m.scales k
  if m.mantissa % 2 = 0 then low * a ≤ point * b && point * b ≤ high * a
  else low * a < point * b && point * b < high * a

/-- The point of the grid `10 ^ k` that is nearest to the number among its two neighbours there
that round to it. -/
def nearestOn? (m : Magnitude) (tie : Tie) (k : Int) : Option Nat :=
  let (_, value, _) := m.quarters
  let (a, b) := m.scales k
  let below := value * a / b
  let above := below + 1
  match m.covers k below, m.covers k above with
  | true, true =>
    let toBelow := value * a - below * b
    let toAbove := above * b - value * a
    if toBelow < toAbove then some below
    else if toAbove < toBelow then some above
    else match tie with
      | .up => some above
      | .toEven => if below % 2 = 0 then some below else some above
  | true, false => some below
  | false, true => some above
  | false, false => none

/-- The first grid with a hit among `fuel` grids from `10 ^ k` downwards; the finest one's
neighbour below if there is no hit. -/
def shortestFrom (m : Magnitude) (tie : Tie) : Nat → Int → Digits
  | 0, k =>
    let (a, b) := m.scales k
    ⟨m.quarters.2.1 * a / b, k⟩
  | fuel + 1, k =>
    match m.nearestOn? tie k with
    | some point => ⟨point, k⟩
    | none => m.shortestFrom tie fuel (k - 1)

/-- The shortest decimal of a number. The first grid is coarser than the number, and no number
needs more than 17 digits. -/
def shortest (m : Magnitude) (tie : Tie) : Digits :=
  let lead := m.exponent + Nat.log2 m.mantissa + 1
  m.shortestFrom tie 20 (Int.fdiv (lead * 30103) 100000 + 1)

end Magnitude

/-! ## Writing the digits -/

/-- How a number is written: which decimal exponents are written with a plain point, and where a
tie between two decimals goes. -/
structure Layout where
  isPlain : Int → Bool
  tie : Tie

/-- A row of zeros. -/
def zeros (n : Nat) : String := String.ofList (List.replicate n '0')

/-- Digits with a plain point, at least one digit on either side of it. -/
def plainText (digits : List Char) (lead : Int) : String :=
  if lead < 0 then "0." ++ zeros (-lead - 1).toNat ++ String.ofList digits
  else
    let whole := lead.toNat + 1
    if digits.length ≤ whole then
      String.ofList digits ++ zeros (whole - digits.length) ++ ".0"
    else String.ofList (digits.take whole) ++ "." ++ String.ofList (digits.drop whole)

/-- Digits with the point behind the first one, and a signed exponent. -/
def exponentText (digits : List Char) (lead : Int) : String :=
  let mantissa := match digits with
    | [] => "0"
    | [d] => d.toString
    | d :: rest => d.toString ++ "." ++ String.ofList rest
  mantissa ++ (if lead < 0 then "e-" else "e+") ++ toString lead.natAbs

/-- A decimal in a layout. -/
def Digits.write (d : Digits) (layout : Layout) : String :=
  let digits := Nat.toDigits 10 d.digits
  let lead := d.exponent + digits.length - 1
  if layout.isPlain lead then plainText digits lead else exponentText digits lead

/-- A finite number of a format in a layout; `none` for infinities and NaN. -/
def Format.write? (f : Format) (layout : Layout) (bits : Nat) : Option String :=
  let (negative, cls) := f.decode bits
  let sign := if negative then "-" else ""
  match cls with
  | .zero => some (sign ++ "0.0")
  | .finite m => some (sign ++ (m.shortest layout.tie).write layout)
  | .infinite | .nan => none

end BehaviorTree.Decimal
