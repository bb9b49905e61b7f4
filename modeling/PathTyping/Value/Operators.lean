import PathTyping.Value

/-!
# Operators on symbolic values

What an operator gives for operands that are known in part.  Constants are computed; comparisons
are decided by bounds where the bounds decide them; a pair of operands without a rule gives
nothing.

1. `negative_boundedNumber`: negation swaps the bounds and negates them.
2. `binary_add_number`: the sum of constants is the constant sum.
-/

namespace PathTyping.Value

/-! ## One operand -/

/-- Constants are negated, bounds are negated and swapped, and what is no number stays as it is. -/
def negative (v : Value) : Value :=
  match v.number? with
  | some x => ofLiteral (.number (-x))
  | none =>
    if v.type = .number then
      let (min, max) := v.bounds
      boundedNumber (max.map (-·)) (min.map (-·))
    else v.copy

def positive (v : Value) : Value := v.copy

def negation (v : Value) : Value :=
  match v.truthiness with
  | some b => ofLiteral (.boolean (!b))
  | none => ofType .boolean

def unary : UnaryOp → Value → Value
  | .positive, v => v.positive
  | .negative, v => v.negative
  | .not, v => v.negation

/-! ## Two operands -/

/-- The result of an operation whose operands may be unknown. -/
def known (f : Float → Float → Float) (a b : Option Float) : Option Float :=
  match a, b with
  | some x, some y => some (f x y)
  | _, _ => none

/-- Numbers are added, and anything that is a string or a number is joined to a string. -/
def add (v w : Value) : Option Value :=
  match v.type, w.type with
  | .number, .number =>
    match v.number?, w.number? with
    | some x, some y => some (ofLiteral (.number (x + y)))
    | _, _ =>
      let (vmin, vmax) := v.bounds
      let (wmin, wmax) := w.bounds
      some (boundedNumber (known (· + ·) vmin wmin) (known (· + ·) vmax wmax))
  | .string, .string | .string, .number | .number, .string =>
    match v.constant, w.constant with
    | some a, some b => some (ofLiteral (.string (a.plainText ++ b.plainText)))
    | _, _ => some (ofType .string)
  | _, _ => none

inductive Arithmetic
  | subtract
  | multiply
  | divide
  | modulo
  deriving DecidableEq

/-- The operation on constants.  A division by zero is left open. -/
def Arithmetic.fold : Arithmetic → Float → Float → Option Float
  | .subtract, x, y => some (x - y)
  | .multiply, x, y => some (x * y)
  | .divide, x, y => if y == 0.0 then none else some (x / y)
  | .modulo, x, y => if y == 0.0 then none else some (Decimal.remainder x y)

/-- What is known of the result where it is not constant.  A remainder lies between zero and the
divisor if the dividend is not negative, else between the divisor and its negative. -/
def Arithmetic.estimate (op : Arithmetic) (v w : Value) : Value :=
  match op with
  | .subtract =>
    let (vmin, vmax) := v.bounds
    let (wmin, wmax) := w.bounds
    boundedNumber (known (· - ·) vmin wmax) (known (· - ·) vmax wmin)
  | .modulo =>
    match w.number? with
    | some d =>
      if 0.0 < d then
        let least := if v.bounds.1.any fun m => 0.0 ≤ m then 0.0 else -d
        boundedNumber (some least) (some d)
      else ofType .number
    | none => ofType .number
  | _ => ofType .number

def arithmetic (op : Arithmetic) (v w : Value) : Option Value :=
  match v.type, w.type with
  | .number, .number =>
    let folded :=
      match v.number?, w.number? with
      | some x, some y => op.fold x y
      | _, _ => none
    match folded with
    | some z => some (ofLiteral (.number z))
    | none => some (op.estimate v w)
  | .number, .any | .any, .number => some (ofType .number)
  | _, _ => none

/-- A truth value that may be unknown. -/
def ofTruth : Option Bool → Value
  | some b => ofLiteral (.boolean b)
  | none => ofType .boolean

/-- Whether two values are equal: known of constants, and of types that have no value in common. -/
def equal? (v w : Value) : Option Bool :=
  match v.constant, w.constant with
  | some a, some b => some (a.same b)
  | _, _ => if v.type.overlaps w.type then none else some false

inductive Comparison
  | less
  | lessEqual
  | greater
  | greaterEqual
  deriving DecidableEq

/-- Both numbers are known and the first lies below the second. -/
def isBelow (a b : Option Float) : Bool :=
  match a, b with
  | some x, some y => x < y
  | _, _ => false

/-- Both numbers are known and the first does not lie above the second. -/
def isAtMost (a b : Option Float) : Bool :=
  match a, b with
  | some x, some y => x ≤ y
  | _, _ => false

/-- The answer of two tests, one of which holds where the answer is known. -/
def decided (always never : Bool) : Option Bool :=
  if always then some true else if never then some false else none

/-- A comparison of numbers, as far as their bounds decide it. -/
def Comparison.ofBounds (op : Comparison) (v w : Value) : Option Bool :=
  let (vmin, vmax) := v.bounds
  let (wmin, wmax) := w.bounds
  match op with
  | .less => decided (isBelow vmax wmin) (isAtMost wmax vmin)
  | .lessEqual => decided (isAtMost vmax wmin) (isBelow wmax vmin)
  | .greater => decided (isBelow wmax vmin) (isAtMost vmax wmin)
  | .greaterEqual => decided (isAtMost wmax vmin) (isBelow vmax wmin)

/-- A comparison of strings, by code point. -/
def Comparison.ofStrings : Comparison → String → String → Bool
  | .less, s, t => s < t
  | .lessEqual, s, t => !(t < s)
  | .greater, s, t => t < s
  | .greaterEqual, s, t => !(s < t)

def comparison (op : Comparison) (v w : Value) : Option Value :=
  match v.type, w.type with
  | .number, .number => some (ofTruth (op.ofBounds v w))
  | .string, .string =>
    match v.string?, w.string? with
    | some s, some t => some (ofTruth (some (op.ofStrings s t)))
    | _, _ => some (ofTruth none)
  | _, _ => none

/-- `and` where one side is known. -/
def andKnown : Option Bool → Option Bool → Option Bool
  | some false, _ => some false
  | _, some false => some false
  | some true, some true => some true
  | _, _ => none

/-- `or` where one side is known. -/
def orKnown : Option Bool → Option Bool → Option Bool
  | some true, _ => some true
  | _, some true => some true
  | some false, some false => some false
  | _, _ => none

/-- Truth values are combined; any other operands give one of the two. -/
def logical (combine : Option Bool → Option Bool → Option Bool) (v w : Value) : Value :=
  if v.type = .boolean ∧ w.type = .boolean then ofTruth (combine v.boolean? w.boolean?)
  else ofType (.join [v.type, w.type])

/-- The result of an operator, if there is a rule for the operands. -/
def binary : BinaryOp → Value → Value → Option Value
  | .add, v, w => add v w
  | .subtract, v, w => arithmetic .subtract v w
  | .multiply, v, w => arithmetic .multiply v w
  | .divide, v, w => arithmetic .divide v w
  | .modulo, v, w => arithmetic .modulo v w
  | .equal, v, w => some (ofTruth (equal? v w))
  | .notEqual, v, w => some (ofTruth ((equal? v w).map (!·)))
  | .less, v, w => comparison .less v w
  | .lessEqual, v, w => comparison .lessEqual v w
  | .greater, v, w => comparison .greater v w
  | .greaterEqual, v, w => comparison .greaterEqual v w
  | .and, v, w => some (logical andKnown v w)
  | .or, v, w => some (logical orKnown v w)

theorem negative_boundedNumber (min max : Option Float) :
    (boundedNumber min max).negative = boundedNumber (max.map (-·)) (min.map (-·)) := by
  simp only [negative, number?_boundedNumber, bounds_boundedNumber]
  rfl

theorem binary_add_number (x y : Float) :
    binary .add (ofLiteral (.number x)) (ofLiteral (.number y)) =
      some (ofLiteral (.number (x + y))) := rfl

end PathTyping.Value
