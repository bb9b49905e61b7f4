import PathTyping.Decimal.Shortest

/-!
# Numbers as text

How a double is written, and how a decimal is read.  A layout fixes what the digits leave open;
the program has two.  `Layout.plain` is the spelling of listings, of descriptions and of numbers
joined to strings; `Layout.dump` is that of token dumps.

1. `write_infinite`, `write_notANumber`: the doubles that have no digits, under every layout.
-/

namespace PathTyping.Decimal

structure Layout where
  /-- Whole numbers end in `.0`. -/
  point : Bool
  /-- The powers of ten, least and greatest, whose multiples are written without an exponent. -/
  positional : Option (Int × Int)

namespace Layout

/-- Positional throughout, whole numbers without a point. -/
def plain : Layout := ⟨false, none⟩

/-- Positional from a ten-thousandth up to ten to the sixteenth, whole numbers with a point. -/
def dump : Layout := ⟨true, some (-4, 15)⟩

def isPositional (layout : Layout) (power : Int) : Bool :=
  match layout.positional with
  | none => true
  | some (least, greatest) => least ≤ power && power ≤ greatest

end Layout

def zeros (count : Nat) : List Char := List.replicate count '0'

/-- Digits without the zeros that end them, and the place of the last digit kept. -/
def trim (digits : List Char) (place : Int) : List Char × Int :=
  let kept := (digits.reverse.dropWhile (· = '0')).reverse
  (kept, place + (digits.length - kept.length))

/-- The digits with a point where units end. -/
def positional (layout : Layout) (digits : List Char) (place : Int) : List Char :=
  if 0 ≤ place then
    digits ++ zeros place.toNat ++ (if layout.point then ['.', '0'] else [])
  else
    let fraction := (-place).toNat
    if fraction < digits.length then
      digits.take (digits.length - fraction) ++ '.' :: digits.drop (digits.length - fraction)
    else '0' :: '.' :: (zeros (fraction - digits.length) ++ digits)

/-- One digit, a point, the other digits and the power of ten of the first. -/
def exponential (digits : List Char) (power : Int) : List Char :=
  let tail := digits.drop 1
  digits.take 1 ++ (if tail.isEmpty then [] else '.' :: tail) ++ 'e' :: (toString power).toList

def writeMagnitude (layout : Layout) (mantissa : Nat) (exponent : Int) : List Char :=
  if mantissa = 0 then positional layout ['0'] 0
  else
    let found := (Magnitude.ofParts mantissa exponent).select
    let (digits, place) := trim (toString found.1).toList found.2
    let power := place + digits.length - 1
    if layout.isPositional power then positional layout digits place
    else exponential digits power

def writeDouble (layout : Layout) : Double → String
  | .notANumber => "NaN"
  | .infinite negative => if negative then "-inf" else "inf"
  | .finite negative mantissa exponent =>
    (if negative then "-" else "") ++ String.ofList (writeMagnitude layout mantissa exponent)

def write (layout : Layout) (x : Float) : String := writeDouble layout (Double.ofFloat x)

@[simp] theorem write_notANumber (layout : Layout) :
    writeDouble layout .notANumber = "NaN" := rfl

@[simp] theorem write_infinite (layout : Layout) (negative : Bool) :
    writeDouble layout (.infinite negative) = if negative then "-inf" else "inf" := rfl

/-! ## Reading -/

def isDigit (c : Char) : Bool := '0' ≤ c && c ≤ '9'

/-- The number that a row of digits spells. -/
def natural (digits : List Char) : Nat :=
  digits.foldl (fun n c => 10 * n + (c.toNat - '0'.toNat)) 0

/-- The power of ten behind an `e`. -/
def readExponent? : List Char → Option Int
  | '-' :: digits => if digits.isEmpty || !digits.all isDigit then none else some (-natural digits)
  | '+' :: digits => if digits.isEmpty || !digits.all isDigit then none else some (natural digits)
  | digits => if digits.isEmpty || !digits.all isDigit then none else some (natural digits)

/-- The double nearest to `digits * 10 ^ power`.  From ten to the four hundredth on that is
infinity, and as far below one it is zero; neither power is then computed. -/
def nearest (digits : Nat) (power : Int) : Float :=
  if digits = 0 then 0.0
  else if 400 < power then 1.0 / 0.0
  else if digits.log2 + 1 + power < -400 then 0.0
  else if power < 0 then Float.ofScientific digits true (-power).toNat
  else Float.ofScientific digits false power.toNat

/-- Digits, a point with digits on one side at least, and a power of ten. -/
def readMagnitude? (text : List Char) : Option Float :=
  let whole := text.takeWhile isDigit
  let rest := text.dropWhile isDigit
  let (fraction, rest) :=
    match rest with
    | '.' :: tail => (tail.takeWhile isDigit, tail.dropWhile isDigit)
    | _ => ([], rest)
  if whole.isEmpty && fraction.isEmpty then none
  else
    let digits := natural (whole ++ fraction)
    match rest with
    | [] => some (nearest digits (-fraction.length))
    | 'e' :: tail | 'E' :: tail =>
      (readExponent? tail).map fun power => nearest digits (power - fraction.length)
    | _ => none

/-- A decimal, or a word for what has no digits. -/
def readUnsigned? (text : List Char) : Option Float :=
  match text.map Char.toLower with
  | ['i', 'n', 'f'] => some (1.0 / 0.0)
  | ['i', 'n', 'f', 'i', 'n', 'i', 't', 'y'] => some (1.0 / 0.0)
  | ['n', 'a', 'n'] => some (0.0 / 0.0)
  | _ => readMagnitude? text

/-- The double nearest to the number that `text` spells. -/
def read? (text : List Char) : Option Float :=
  match text with
  | '-' :: tail => (readUnsigned? tail).map (-·)
  | '+' :: tail => readUnsigned? tail
  | _ => readUnsigned? text

end PathTyping.Decimal
