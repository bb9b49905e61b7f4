import PathTyping.Decimal.Double

/-!
# The fewest digits that identify a double

The decimals that read back as a double lie between the halfway points to its neighbours; the
halfway points belong to it exactly when its mantissa is even.  For one digit, then two, and so on
up to seventeen, the two decimals of that many digits on either side of the double are tried.  The
first that reads back is taken; of two the nearer, and of two equally near the larger.

1. `onGrid?_readsBack`: what is taken from a grid reads back.
2. `select_reads_back`: what is selected reads back, unless no grid held a decimal that does.
-/

namespace PathTyping.Decimal

/-- A positive finite double `mantissa * 2 ^ exponent`.  At a power of two the neighbour below is
half as far away as the neighbour above. -/
structure Magnitude where
  mantissa : Nat
  exponent : Int
  narrow : Bool

namespace Magnitude

def ofParts (mantissa : Nat) (exponent : Int) : Magnitude :=
  ⟨mantissa, exponent, mantissa == Nat.pow 2 52 && decide (-1074 < exponent)⟩

/-- One unit in the last binary place, on the scale of `grain`. -/
def unit (x : Magnitude) (place : Int) : Nat :=
  Nat.pow 2 x.exponent.toNat * Nat.pow 10 (-place).toNat

/-- The decimal `10 ^ place`, on the scale of `unit`. -/
def grain (x : Magnitude) (place : Int) : Nat :=
  Nat.pow 2 (-x.exponent).toNat * Nat.pow 10 place.toNat

/-- The decimal `digits * 10 ^ place` reads back as `x`. -/
def readsBack (x : Magnitude) (digits : Nat) (place : Int) : Bool :=
  let decimal := 4 * digits * x.grain place
  let low := (4 * x.mantissa - if x.narrow then 1 else 2) * x.unit place
  let high := (4 * x.mantissa + 2) * x.unit place
  if x.mantissa % 2 = 0 then low ≤ decimal && decimal ≤ high
  else low < decimal && decimal < high

/-- The whole number of steps of `10 ^ place` in `x`. -/
def steps (x : Magnitude) (place : Int) : Nat := x.mantissa * x.unit place / x.grain place

/-- `x < 10 ^ place`. -/
def below (x : Magnitude) (place : Int) : Bool := x.mantissa * x.unit place < x.grain place

/-- The least `k` with `x < 10 ^ k`, found from the binary logarithm. -/
def scale (x : Magnitude) : Int :=
  let guess : Int := Int.fdiv (((x.mantissa.log2 : Int) + x.exponent) * 30103) 100000
  if x.below guess then guess
  else if x.below (guess + 1) then guess + 1
  else guess + 2

/-- The decimal in steps of `10 ^ place` that stands for `x`, if one reads back. -/
def onGrid? (x : Magnitude) (place : Int) : Option Nat :=
  let low := x.steps place
  let up := low + 1
  match x.readsBack low place, x.readsBack up place with
  | true, true =>
    if 2 * x.mantissa * x.unit place < (low + up) * x.grain place then some low else some up
  | true, false => some low
  | false, true => some up
  | false, false => none

/-- Tries grids of `count` digits and more, `fuel` of them. -/
def search (x : Magnitude) (scale : Int) : Nat → Nat → Nat × Int
  | 0, count => (x.steps (scale - count), scale - count)
  | fuel + 1, count =>
    match x.onGrid? (scale - count) with
    | some digits => (digits, scale - count)
    | none => search x scale fuel (count + 1)

/-- Digits and the place of the last of them. -/
def select (x : Magnitude) : Nat × Int := x.search x.scale 17 1

theorem onGrid?_readsBack {x : Magnitude} {place : Int} {digits : Nat}
    (h : x.onGrid? place = some digits) : x.readsBack digits place = true := by
  unfold onGrid? at h
  simp only at h
  split at h
  · split at h <;> simp_all
  · simp_all
  · simp_all
  · simp at h

theorem search_reads_back (x : Magnitude) (scale : Int) (fuel count : Nat) :
    x.readsBack (x.search scale fuel count).1 (x.search scale fuel count).2 = true ∨
      x.search scale fuel count =
        (x.steps (scale - (count + fuel : Nat)), scale - (count + fuel : Nat)) := by
  induction fuel generalizing count with
  | zero => exact .inr rfl
  | succ fuel ih =>
    rw [search]
    split
    · exact .inl (onGrid?_readsBack (by assumption))
    · rw [show count + (fuel + 1) = count + 1 + fuel by omega]
      exact ih (count + 1)

theorem select_reads_back (x : Magnitude) :
    x.readsBack x.select.1 x.select.2 = true ∨ x.select = (x.steps (x.scale - 18), x.scale - 18) :=
  x.search_reads_back x.scale 17 1

end Magnitude

end PathTyping.Decimal
