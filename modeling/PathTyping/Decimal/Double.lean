/-!
# Doubles as exact numbers

A finite double is a mantissa times a power of two.  What the analysis needs beyond the four
operations of arithmetic is done on that form, exactly: the remainder of a division, and the
reading of a double as an index.

1. `remainder_of_zero`: dividing by zero leaves no number.
2. `toIndex?_notANumber`: what is no number is no index.
-/

namespace PathTyping.Decimal

inductive Double
  | notANumber
  | infinite (negative : Bool)
  /-- The value `mantissa * 2 ^ exponent`, negated where `negative` holds. -/
  | finite (negative : Bool) (mantissa : Nat) (exponent : Int)
  deriving DecidableEq, Inhabited

namespace Double

/-- The parts of a double: sign, eleven bits of exponent, fifty-two bits of fraction. -/
def ofFloat (x : Float) : Double :=
  let bits : Nat := x.toBits.toNat
  let negative := decide (Nat.pow 2 63 ≤ bits)
  let exponent : Nat := bits / Nat.pow 2 52 % Nat.pow 2 11
  let fraction : Nat := bits % Nat.pow 2 52
  if exponent = Nat.pow 2 11 - 1 then
    if fraction = 0 then .infinite negative else .notANumber
  else if exponent = 0 then .finite negative fraction (-1074)
  else .finite negative (fraction + Nat.pow 2 52) ((exponent : Int) - 1075)

/-- The double `mantissa * 2 ^ exponent`; bits of the mantissa below the last place are dropped. -/
def pack (negative : Bool) (mantissa : Nat) (exponent : Int) : Float :=
  let width : Int := if mantissa = 0 then 0 else mantissa.log2 + 1
  let last : Int := max (exponent + width - 53) (-1074)
  let scaled :=
    if exponent ≤ last then mantissa / Nat.pow 2 (last - exponent).toNat
    else mantissa * Nat.pow 2 (exponent - last).toNat
  let magnitude :=
    if scaled < Nat.pow 2 52 then scaled
    else (last + 1075).toNat * Nat.pow 2 52 + (scaled - Nat.pow 2 52)
  let sign := if negative then Nat.pow 2 63 else 0
  Float.ofBits (UInt64.ofNat (sign + magnitude))

/-- The double of a form. -/
def toFloat : Double → Float
  | .notANumber => 0.0 / 0.0
  | .infinite negative => if negative then -1.0 / 0.0 else 1.0 / 0.0
  | .finite negative mantissa exponent => pack negative mantissa exponent

/-- What is left of a division with a whole quotient rounded toward zero.  The remainder takes the
sign of the dividend, and is exact: on a common last place it is a remainder of naturals. -/
def remainder : Double → Double → Double
  | .finite negative m q, .finite _ n r =>
    if n = 0 then .notANumber
    else
      let place := min q r
      .finite negative (m * Nat.pow 2 (q - place).toNat % (n * Nat.pow 2 (r - place).toNat)) place
  | .finite negative m q, .infinite _ => .finite negative m q
  | _, _ => .notANumber

/-- The natural number that the double is. -/
def toIndex? : Double → Option Nat
  | .finite negative m q =>
    if negative && m != 0 then none
    else if 0 ≤ q then some (m * Nat.pow 2 q.toNat)
    else if m % Nat.pow 2 (-q).toNat = 0 then some (m / Nat.pow 2 (-q).toNat)
    else none
  | _ => none

@[simp] theorem remainder_of_zero (x : Double) (negative : Bool) (q : Int) :
    x.remainder (.finite negative 0 q) = .notANumber := by
  cases x <;> simp [remainder]

@[simp] theorem toIndex?_notANumber : toIndex? .notANumber = none := rfl

end Double

/-- The remainder of a division of doubles. -/
def remainder (x y : Float) : Float :=
  ((Double.ofFloat x).remainder (Double.ofFloat y)).toFloat

def toIndex? (x : Float) : Option Nat := (Double.ofFloat x).toIndex?

end PathTyping.Decimal
