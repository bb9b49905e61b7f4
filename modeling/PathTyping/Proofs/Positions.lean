import PathTyping.Tree.Declaration

/-!
# Reading by position

The readers once more, as they go along a row by the number of the token to come.  The end of the
row has a number too; there a reader does not move, and where it takes a token it is handed the last
one once more.  So a reader of this kind may take a token twice, look outside of the row, or never
end, and nothing is said here against that.

1. `TokenRow.operand` and its siblings read expressions, `TokenRow.statement` and its siblings
   statements and declarations.
2. `Module.byPosition`, `Expr.byPosition`: a whole row.
-/

namespace PathTyping

/-- What stands at a position of a row; its end is the last position. -/
def TokenRow.at? (row : TokenRow) (i : Nat) : Option Found :=
  match row.tokens[i]? with
  | some t => some (.token t)
  | none => if i = row.tokens.length then some (.finish row.finish) else none

/-- The number of the token to come, and what was reported. -/
structure Position where
  index : Nat
  report : Report

/-- Why a reader stops. -/
inductive Stop
  /-- It has looked for a token outside of the row. -/
  | outside
  | failed (failure : ParseFailure)

/-- What a reader does from a position on; it may never end. -/
abbrev Positional := StateT Position (ExceptT Stop Option)

namespace Found

/-- It is a token of which `p` holds. -/
def is (found : Found) (p : Token → Bool) : Bool :=
  match found with
  | token t => p t
  | finish _ => false

def isFinish : Found → Bool
  | token _ => false
  | finish _ => true

end Found

/-- Gives up because of what was found. -/
def Positional.failAt {α : Type} (what : Expectation) (found : Found) : Positional α := do
  let e := ParseError.expected what found
  throw (.failed ⟨e, (← get).report.add e.diagnostic⟩)

open Positional (failAt)

namespace TokenRow

/-! ## Tokens -/

/-- What stands at position `i`. -/
def look (row : TokenRow) (i : Nat) : Positional Found := do
  match row.at? i with
  | some found => return found
  | none => throw .outside

/-- What comes next; behind the end, the end. -/
def peek (row : TokenRow) : Positional Found := do
  row.look (min (← get).index row.tokens.length)

def peekIs (row : TokenRow) (p : Token → Bool) : Positional Bool := do
  return (← row.peek).is p

/-- What stands before the position; at the very beginning there is nothing. -/
def behind (row : TokenRow) : Positional Found := do
  match (← get).index with
  | 0 => throw .outside
  | i + 1 => row.look i

/-- Moves on, but not at the end, and gives what stands before the position then. -/
def advance (row : TokenRow) : Positional Found := do
  if !(← row.peek).isFinish then modify fun p => { p with index := p.index + 1 }
  row.behind

/-- Takes the token to come, of which `p` must hold. -/
def expect (row : TokenRow) (p : Token → Bool) (what : Expectation) : Positional Token := do
  match ← row.peek with
  | .token t =>
    if p t then
      let _ ← row.advance
      return t
    else failAt what (.token t)
  | .finish place => failAt what (.finish place)

def expectMark (row : TokenRow) (m : Mark) (what : Expectation) : Positional Token :=
  row.expect (·.isMark m) what

def expectName (row : TokenRow) (what : Expectation) : Positional Token :=
  row.expect Cursor.isIdentifier what

/-- Takes tokens as long as `p` holds of the one to come. -/
def skip (row : TokenRow) (p : Token → Bool) : Positional Unit := do
  if ← row.peekIs p then
    let _ ← row.advance
    row |>.skip p
partial_fixpoint

def skipNewlines (row : TokenRow) : Positional Unit := row.skip Token.isNewline

def skipSeparators (row : TokenRow) : Positional Unit := row.skip Token.isSeparator

/-! ## Expressions -/

mutual

def operand (row : TokenRow) : Positional Expr := do
  match ← row.advance with
  | .finish place => failAt .operand (.finish place)
  | .token t =>
    match t.atom? with
    | some e => row |>.chain e
    | none =>
      match t.unaryOp? with
      | some op =>
        let e ← row |>.operand
        row |>.chain (.unary (t.span.cover e.span) op e)
      | none =>
        if t.isMark .lparen then
          row.skipNewlines
          let e ← row |>.expression 0
          row.skipNewlines
          let close ← row.expectMark .rparen .groupEnd
          row |>.chain (.group (t.span.cover close.span) e)
        else failAt .operand (.token t)
partial_fixpoint

def expression (row : TokenRow) (level : Nat) : Positional Expr := do
  let left ← row |>.operand
  row |>.climb level left
partial_fixpoint

/-- As long as an operator comes that binds tighter than `level`, its right side is read. -/
def climb (row : TokenRow) (level : Nat) (left : Expr) : Positional Expr := do
  match ← row.peek with
  | .finish _ => return left
  | .token t =>
    match t.operator? with
    | none => return left
    | some op =>
      if op.level ≤ level then return left
      else
        let _ ← row.advance
        row.skipNewlines
        match op with
        | .assign =>
          let value ← row |>.expression 0
          if left.isTarget then row |>.climb level (.assign (left.span.cover value.span) left value)
          else
            let e := ParseError.invalidTarget left.span
            throw (.failed ⟨e, (← get).report.add e.diagnostic⟩)
        | .binary op =>
          let right ← row |>.expression op.level
          row |>.climb level (.binary (left.span.cover right.span) op left right)
partial_fixpoint

/-- As long as a call, a member or an index comes, it is read. -/
def chain (row : TokenRow) (e : Expr) : Positional Expr := do
  let found ← row.peek
  if found.is (·.isMark .lparen) then
    let _ ← row.advance
    row.skipNewlines
    let arguments ← if ← row.peekIs (·.isMark .rparen) then pure [] else row |>.argumentList
    let close ← row.expectMark .rparen .argumentsEnd
    row |>.chain (.call (e.span.cover close.span) e arguments)
  else if found.is (·.isMark .dot) then
    let _ ← row.advance
    let name ← row.expectName .memberName
    row |>.chain (.member (e.span.cover name.span) e name.lexeme name.span)
  else if found.is (·.isMark .lbracket) then
    let _ ← row.advance
    row.skipNewlines
    let index ← row |>.expression 0
    row.skipNewlines
    let close ← row.expectMark .rbracket .indexEnd
    row |>.chain (.index (e.span.cover close.span) e index)
  else return e
partial_fixpoint

def argumentList (row : TokenRow) : Positional (List Expr) := do
  row.skipNewlines
  let first ← row |>.expression 0
  row.skipNewlines
  if ← row.peekIs (·.isMark .comma) then
    let _ ← row.advance
    let others ← row |>.argumentList
    return first :: others
  else return [first]
partial_fixpoint

end

/-! ## Statements -/

/-- The end of a statement; separators are passed over, a closing brace is left to its block. -/
def statementEnd (row : TokenRow) : Positional Unit := do
  let found ← row.peek
  if found.is Token.isSeparator then row.skipSeparators
  else if found.isFinish || found.is (·.isMark .rbrace) then return ()
  else failAt .statementEnd found

def typeName (row : TokenRow) : Positional TypeName := do
  match ← row.peek with
  | .finish place => failAt .typeName (.finish place)
  | .token t =>
    match t.kind with
    | .identifier =>
      let _ ← row.advance
      return ⟨t.lexeme, t.span⟩
    | .keyword .nil =>
      let _ ← row.advance
      return ⟨"Nil", t.span⟩
    | _ => failAt .typeName (.token t)

/-- A type behind `mark`, where that mark stands. -/
def typeBehind? (row : TokenRow) (mark : Mark) : Positional (Option TypeName) := do
  if ← row.peekIs (·.isMark mark) then
    let _ ← row.advance
    let type ← row.typeName
    return some type
  else return none

/-- An expression behind `=`, where that mark stands. -/
def valueBehind? (row : TokenRow) (level : Nat) : Positional (Option Expr) := do
  if ← row.peekIs (·.isMark .equal) then
    let _ ← row.advance
    let value ← row.expression level
    return some value
  else return none

/-- Behind any number of newlines, the tokens go on with `else`. -/
def elseAhead (row : TokenRow) : Positional Bool := do
  let i := (← get).index
  if row.tokens.length + 1 < i then throw .outside
  else return ((row.tokens.drop i).find? (!·.isNewline)).any (·.isKeyword .else_)

mutual

/-- Statements between braces, and the span of the brace that closes them. -/
def block (row : TokenRow) : Positional (List Stmt × Span) := do
  let _ ← row.expectMark .lbrace .blockStart
  row |>.statements
partial_fixpoint

def statements (row : TokenRow) : Positional (List Stmt × Span) := do
  row.skipSeparators
  match ← row.peek with
  | .finish place => failAt .blockEnd (.finish place)
  | .token t =>
    if t.isMark .rbrace then
      let _ ← row.advance
      return ([], t.span)
    else
      let s ← row |>.statement
      let (others, close) ← row |>.statements
      return (s :: others, close)
partial_fixpoint

def statement (row : TokenRow) : Positional Stmt := do
  match ← row.peek with
  | .finish _ =>
    let e ← row.expression 0
    row.statementEnd
    return .expr e
  | .token t =>
    match t.kind with
    | .keyword .var =>
      let _ ← row.advance
      let name ← row.expectName .bindingName
      let _ ← row.expectMark .equal .variableEqual
      let value ← row.expression 0
      row.statementEnd
      return .var name.span name.lexeme value
    | .keyword .if_ =>
      let _ ← row.advance
      let (s, _) ← row |>.conditional t.span
      return s
    | .keyword .while_ =>
      let _ ← row.advance
      let condition ← row.expression 0
      let (body, close) ← row |>.block
      return .loop (t.span.cover close) condition body
    | .keyword .return_ =>
      let _ ← row.advance
      let found ← row.peek
      if found.isFinish || found.is fun t => t.isSeparator || t.isMark .rbrace then
        row.statementEnd
        return .ret t.span none
      else
        let value ← row.expression 0
        row.statementEnd
        return .ret (t.span.cover value.span) (some value)
    | _ =>
      let e ← row.expression 0
      row.statementEnd
      return .expr e
partial_fixpoint

/-- What follows an `if` that stands at `start`, and the span of the whole. -/
def conditional (row : TokenRow) (start : Span) : Positional (Stmt × Span) := do
  let condition ← row.expression 0
  let (consequent, close) ← row |>.block
  let span := start.cover close
  if ← row.elseAhead then row.skipNewlines
  if ← row.peekIs (·.isKeyword .else_) then
    let _ ← row.advance
    if ← row.peekIs (·.isKeyword .if_) then
      let again ← row.advance
      let (nested, nestedSpan) ← row |>.conditional again.span
      let span := span.cover nestedSpan
      return (.cond span condition consequent (some [nested]), span)
    else
      let (alternative, close) ← row |>.block
      let span := span.cover close
      return (.cond span condition consequent (some alternative), span)
  else return (.cond span condition consequent none, span)
partial_fixpoint

end

/-! ## Declarations -/

def parameter (row : TokenRow) (variadicSeen : Bool) : Positional Parameter := do
  let variadic ← row.peekIs (·.isMark .dots)
  if variadic then
    let _ ← row.advance
  let name ← row.expectName .parameterName
  let type ← row.typeBehind? .colon
  let default ← row.valueBehind? 1
  let p : Parameter := ⟨name.lexeme, name.span, type, default, variadic⟩
  if variadicSeen then
    modify fun here => { here with report := here.report.add (Reading.followsVariadic p) }
  return p

/-- Parameters up to the parenthesis that closes their list. -/
def parameterList (row : TokenRow) (variadicSeen : Bool) : Positional (List Parameter) := do
  row.skipNewlines
  let p ← row.parameter variadicSeen
  row.skipNewlines
  let found ← row.advance
  if found.is (·.isMark .comma) then
    let others ← row |>.parameterList (variadicSeen || p.variadic)
    return p :: others
  else if found.is (·.isMark .rparen) then return [p]
  else failAt .parameterEnd found
partial_fixpoint

/-- What follows an opening parenthesis. -/
def parameters (row : TokenRow) : Positional (List Parameter) := do
  row.skipNewlines
  if ← row.peekIs (·.isMark .rparen) then
    let _ ← row.advance
    return []
  else row.parameterList false

/-- What follows an `fn`; the span starts at the token that was taken last. -/
def function (row : TokenRow) : Positional FunctionDecl := do
  let start ← row.look ((← get).index - 1)
  let name ← row.expectName .functionName
  let _ ← row.expectMark .lparen .parameterStart
  let parameters ← row.parameters
  let returns ← row.typeBehind? .arrow
  let (body, close) ← row.block
  return ⟨name.lexeme, name.span, parameters, returns, body, start.span.cover close⟩

/-- What follows the `var` of a field. -/
def field (row : TokenRow) : Positional FieldDecl := do
  let name ← row.expectName .fieldName
  let type ← row.typeBehind? .colon
  let value ← row.valueBehind? 0
  row.statementEnd
  return ⟨name.lexeme, name.span, type, value⟩

/-- The fields and methods of a class, up to the brace that closes it. -/
def classBody (row : TokenRow) : Positional (List FieldDecl × List FunctionDecl) := do
  row.skipSeparators
  match ← row.peek with
  | .finish place => failAt .classEnd (.finish place)
  | .token t =>
    if t.isMark .rbrace then
      let _ ← row.advance
      return ([], [])
    else if t.isKeyword .var then
      let _ ← row.advance
      let f ← row.field
      let (fields, methods) ← row |>.classBody
      return (f :: fields, methods)
    else if t.isKeyword .fn then
      let _ ← row.advance
      let f ← row.function
      let (fields, methods) ← row |>.classBody
      return (fields, f :: methods)
    else failAt .classMember (.token t)
partial_fixpoint

/-- What follows a `class`. -/
def classDecl (row : TokenRow) : Positional ClassDecl := do
  let name ← row.expectName .className
  let _ ← row.expectMark .lbrace .classStart
  let (fields, methods) ← row.classBody
  return ⟨name.lexeme, name.span, fields, methods⟩

/-- What follows the `var` or `const` of a module. -/
def global (row : TokenRow) (constant : Bool) : Positional GlobalDecl := do
  let name ← row.expectName .bindingName
  let type ← row.typeBehind? .colon
  let _ ← row.expectMark .equal .globalEqual
  let value ← row.expression 0
  row.statementEnd
  return ⟨constant, name.lexeme, name.span, type, value⟩

def item (row : TokenRow) : Positional Item := do
  match ← row.peek with
  | .finish place => failAt .item (.finish place)
  | .token t =>
    match t.kind with
    | .keyword .fn =>
      let _ ← row.advance
      let f ← row.function
      return .function f
    | .keyword .class_ =>
      let _ ← row.advance
      let d ← row.classDecl
      return .class_ d
    | .keyword .var =>
      let _ ← row.advance
      let g ← row.global false
      return .global g
    | .keyword .const =>
      let _ ← row.advance
      let g ← row.global true
      return .global g
    | _ => failAt .item (.token t)

/-- The items up to the end of the row. -/
def items (row : TokenRow) : Positional (List Item) := do
  row.skipSeparators
  if (← row.peek).isFinish then return []
  else
    let i ← row.item
    let others ← row |>.items
    return i :: others
partial_fixpoint

end TokenRow

/-- What a reader comes to from the beginning of a row, and what is reported then. -/
def Positional.outcome {α : Type} (x : Positional α) : Option (Except Stop (α × Report)) :=
  (x.run ⟨0, .empty⟩).run.map (Except.map fun (v, here) => (v, here.report))

/-- The module that a row spells, by position; nothing if the reading never ends. -/
def Module.byPosition (row : TokenRow) : Option (Except Stop (Module × Report)) :=
  Positional.outcome (do return ⟨← row.items⟩)

/-- The expression that a row spells, by position; nothing if the reading never ends. -/
def Expr.byPosition (row : TokenRow) : Option (Except Stop (Expr × Report)) :=
  Positional.outcome (do
    row.skipSeparators
    let e ← row.expression 0
    row.skipSeparators
    let found ← row.peek
    if found.isFinish then return e else failAt .expressionEnd found)

end PathTyping
