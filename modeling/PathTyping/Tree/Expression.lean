import PathTyping.Tree
import PathTyping.Tree.Cursor

/-!
# Reading expressions

An expression is an operand followed by operators that bind tighter than the level asked for, each
with its right side.  Operators of one level group to the left; assignment groups to the right.

1. `Reading.expression`: the recursion ends because every operand uses up a token.
2. `Expr.ofTokens`: an expression followed by nothing but separators.
-/

namespace PathTyping

/-! ## Operators -/

/-- How tightly an operator binds. -/
def BinaryOp.level : BinaryOp → Nat
  | .or => 2
  | .and => 3
  | .equal | .notEqual => 4
  | .greater | .greaterEqual | .less | .lessEqual => 5
  | .add | .subtract => 6
  | .multiply | .divide | .modulo => 7

/-- What can stand between two operands. -/
inductive Operator
  | assign
  | binary (op : BinaryOp)
  deriving DecidableEq

namespace Operator

def level : Operator → Nat
  | assign => 1
  | binary op => op.level

end Operator

def Mark.operator? : Mark → Option Operator
  | .equal => some .assign
  | .plus => some (.binary .add)
  | .minus => some (.binary .subtract)
  | .star => some (.binary .multiply)
  | .slash => some (.binary .divide)
  | .percent => some (.binary .modulo)
  | .doubleEqual => some (.binary .equal)
  | .bangEqual => some (.binary .notEqual)
  | .greater => some (.binary .greater)
  | .greaterEqual => some (.binary .greaterEqual)
  | .less => some (.binary .less)
  | .lessEqual => some (.binary .lessEqual)
  | _ => none

def Token.operator? (t : Token) : Option Operator :=
  match t.kind with
  | .mark m => m.operator?
  | .keyword .and => some (.binary .and)
  | .keyword .or => some (.binary .or)
  | _ => none

def Token.unaryOp? (t : Token) : Option UnaryOp :=
  match t.kind with
  | .mark .minus => some .negative
  | .mark .plus => some .positive
  | .mark .bang => some .not
  | .keyword .not => some .not
  | _ => none

/-- The operand that is this one token. -/
def Token.atom? (t : Token) : Option Expr :=
  match t.kind with
  | .number x => some (.literal t.span (.number x))
  | .string s => some (.literal t.span (.string s))
  | .boolean b => some (.literal t.span (.boolean b))
  | .keyword .nil => some (.literal t.span .nil)
  | .keyword .self => some (.self t.span)
  | .identifier => some (.name t.span t.lexeme)
  | _ => none

/-! ## Expressions -/

namespace Reading

mutual

/-- An operand with its chain of calls, members and indexes.  The operand of a unary operator has
its chain to itself, so `-a.b` negates a member. -/
def operand (c : Cursor) : Reading Expr c.size :=
  match c.pop? with
  | none => .error c.failOperand
  | some ⟨t, c₁, h₁⟩ =>
    match t.atom? with
    | some e => do
      let ⟨e, c₂, h₂⟩ ← chain e c₁
      return ⟨e, c₂, by omega⟩
    | none =>
      match t.unaryOp? with
      | some op => do
        let ⟨e, c₂, h₂⟩ ← operand c₁
        let ⟨e, c₃, h₃⟩ ← chain (.unary (t.span.cover e.span) op e) c₂
        return ⟨e, c₃, by omega⟩
      | none =>
        if t.isMark .lparen then do
          have hs := c₁.size_skipNewlines_le
          let ⟨e, c₂, h₂⟩ ← expression 0 c₁.skipNewlines
          have hs₂ := c₂.size_skipNewlines_le
          let ⟨close, c₃, h₃⟩ ← c₂.skipNewlines.expectMark .rparen .groupEnd
          let ⟨e, c₄, h₄⟩ ← chain (.group (t.span.cover close.span) e) c₃
          return ⟨e, c₄, by omega⟩
        else .error (c₁.fail (.expected .operand (.token t)))
termination_by 4 * c.size

/-- An expression of operators that bind tighter than `level`. -/
def expression (level : Nat) (c : Cursor) : Reading Expr c.size := do
  let ⟨left, c₁, h₁⟩ ← operand c
  let ⟨e, c₂, h₂⟩ ← climb level left c₁
  return ⟨e, c₂, by omega⟩
termination_by 4 * c.size + 1

/-- The operators behind `left` that bind tighter than `level`, with their right sides. -/
def climb (level : Nat) (left : Expr) (c : Cursor) : Reading Expr (c.size + 1) :=
  match c.pop? with
  | none => return ⟨left, c, by omega⟩
  | some ⟨t, c₁, h₁⟩ =>
    match t.operator? with
    | none => return ⟨left, c, by omega⟩
    | some op =>
      if op.level ≤ level then return ⟨left, c, by omega⟩
      else
        have hs := c₁.size_skipNewlines_le
        match op with
        | .assign => do
          let ⟨value, c₂, h₂⟩ ← expression 0 c₁.skipNewlines
          if left.isTarget then do
            let ⟨e, c₃, h₃⟩ ← climb level (.assign (left.span.cover value.span) left value) c₂
            return ⟨e, c₃, by omega⟩
          else throw (c₂.fail (.invalidTarget left.span))
        | .binary op => do
          let ⟨right, c₂, h₂⟩ ← expression op.level c₁.skipNewlines
          let ⟨e, c₃, h₃⟩ ← climb level (.binary (left.span.cover right.span) op left right) c₂
          return ⟨e, c₃, by omega⟩
termination_by 4 * c.size

/-- The calls, members and indexes behind `e`. -/
def chain (e : Expr) (c : Cursor) : Reading Expr (c.size + 1) :=
  match c.pop? with
  | none => return ⟨e, c, by omega⟩
  | some ⟨t, c₁, h₁⟩ =>
    if t.isMark .lparen then do
      have hs := c₁.size_skipNewlines_le
      if c₁.skipNewlines.nextIs (·.isMark .rparen) then do
        let ⟨close, c₂, h₂⟩ ← c₁.skipNewlines.expectMark .rparen .argumentsEnd
        let ⟨e, c₃, h₃⟩ ← chain (.call (e.span.cover close.span) e []) c₂
        return ⟨e, c₃, by omega⟩
      else do
        let ⟨arguments, c₂, h₂⟩ ← argumentList c₁.skipNewlines
        let ⟨close, c₃, h₃⟩ ← c₂.expectMark .rparen .argumentsEnd
        let ⟨e, c₄, h₄⟩ ← chain (.call (e.span.cover close.span) e arguments) c₃
        return ⟨e, c₄, by omega⟩
    else if t.isMark .dot then do
      let ⟨name, c₂, h₂⟩ ← c₁.expectName .memberName
      let ⟨e, c₃, h₃⟩ ← chain (.member (e.span.cover name.span) e name.lexeme name.span) c₂
      return ⟨e, c₃, by omega⟩
    else if t.isMark .lbracket then do
      have hs := c₁.size_skipNewlines_le
      let ⟨index, c₂, h₂⟩ ← expression 0 c₁.skipNewlines
      have hs₂ := c₂.size_skipNewlines_le
      let ⟨close, c₃, h₃⟩ ← c₂.skipNewlines.expectMark .rbracket .indexEnd
      let ⟨e, c₄, h₄⟩ ← chain (.index (e.span.cover close.span) e index) c₃
      return ⟨e, c₄, by omega⟩
    else return ⟨e, c, by omega⟩
termination_by 4 * c.size + 3

/-- Arguments with commas between them; newlines may stand around each. -/
def argumentList (c : Cursor) : Reading (List Expr) c.size := do
  have hs := c.size_skipNewlines_le
  let ⟨first, c₁, h₁⟩ ← expression 0 c.skipNewlines
  have hs₁ := c₁.size_skipNewlines_le
  match c₁.skipNewlines.read? (·.isMark .comma) with
  | some ⟨_, c₂, h₂⟩ => do
    let ⟨others, c₃, h₃⟩ ← argumentList c₂
    return ⟨first :: others, c₃, by omega⟩
  | none => return ⟨[first], c₁.skipNewlines, by omega⟩
termination_by 4 * c.size + 2

end

end Reading

/-- The expression that a row of tokens spells, with separators around it. -/
def Expr.ofTokens (row : TokenRow) : Except ParseFailure (Expr × Report) := do
  let ⟨e, c, _⟩ ← Reading.expression 0 (Cursor.ofRow row).skipSeparators
  let c := c.skipSeparators
  if c.rest.isEmpty then return (e, c.report) else throw (c.failHere .expressionEnd)

end PathTyping
