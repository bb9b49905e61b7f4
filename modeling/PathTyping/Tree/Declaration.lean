import PathTyping.Tree.Expression

/-!
# Reading statements and declarations

Statements end at a newline, a semicolon or the brace that closes their block.  A module is a row
of declarations with separators between them.

1. `Module.ofTokens`: the whole row is read, or the reading fails at one token.
-/

namespace PathTyping

namespace Reading

/-- The end of a statement; separators are passed over, a closing brace is left to its block. -/
def statementEnd (c : Cursor) : Except ParseFailure { next : Cursor // next.size ≤ c.size } :=
  if c.rest.isEmpty || c.nextIs (·.isMark .rbrace) then .ok ⟨c, Nat.le_refl _⟩
  else if c.nextIs Token.isSeparator then .ok ⟨c.skipSeparators, c.size_skipSeparators_le⟩
  else .error (c.failHere .statementEnd)

def typeName (c : Cursor) : Reading TypeName c.size :=
  match c.pop? with
  | some ⟨t, c₁, h₁⟩ =>
    match t.kind with
    | .identifier => return ⟨⟨t.lexeme, t.span⟩, c₁, h₁⟩
    | .keyword .nil => return ⟨⟨"Nil", t.span⟩, c₁, h₁⟩
    | _ => throw (c.failHere .typeName)
  | none => throw (c.failHere .typeName)

/-- A type behind `mark`, where that mark stands. -/
def typeBehind? (mark : Mark) (c : Cursor) : Reading (Option TypeName) (c.size + 1) :=
  match c.read? (·.isMark mark) with
  | some ⟨_, c₁, h₁⟩ => do
    let ⟨a, c₂, h₂⟩ ← typeName c₁
    return ⟨some a, c₂, by omega⟩
  | none => return ⟨none, c, c.size_lt_succ⟩

/-- An expression behind `=`, where that mark stands. -/
def valueBehind? (level : Nat) (c : Cursor) : Reading (Option Expr) (c.size + 1) :=
  match c.read? (·.isMark .equal) with
  | some ⟨_, c₁, h₁⟩ => do
    let ⟨e, c₂, h₂⟩ ← expression level c₁
    return ⟨some e, c₂, by omega⟩
  | none => return ⟨none, c, c.size_lt_succ⟩

/-! ## Statements -/

mutual

/-- Statements between braces, and the span of the brace that closes them. -/
def block (c : Cursor) : Reading (List Stmt × Span) c.size := do
  let ⟨_, c₁, h₁⟩ ← c.expectMark .lbrace .blockStart
  let ⟨b, c₂, h₂⟩ ← statements c₁
  return ⟨b, c₂, by omega⟩
termination_by 4 * c.size

/-- Statements up to the brace that closes their block. -/
def statements (c : Cursor) : Reading (List Stmt × Span) c.size := do
  have hs := c.size_skipSeparators_le
  match c.skipSeparators.pop? with
  | none => throw (c.skipSeparators.failHere .blockEnd)
  | some ⟨t, c₁, h₁⟩ =>
    if t.isMark .rbrace then return ⟨([], t.span), c₁, by omega⟩
    else do
      let ⟨s, c₂, h₂⟩ ← statement c.skipSeparators
      let ⟨⟨others, close⟩, c₃, h₃⟩ ← statements c₂
      return ⟨(s :: others, close), c₃, by omega⟩
termination_by 4 * c.size + 1
decreasing_by all_goals omega

def statement (c : Cursor) : Reading Stmt c.size :=
  match c.pop? with
  | none => throw c.failOperand
  | some ⟨t, c₁, h₁⟩ =>
    match t.kind with
    | .keyword .var => do
      let ⟨name, c₂, h₂⟩ ← c₁.expectName .bindingName
      let ⟨_, c₃, h₃⟩ ← c₂.expectMark .equal .variableEqual
      let ⟨value, c₄, h₄⟩ ← expression 0 c₃
      let ⟨c₅, h₅⟩ ← statementEnd c₄
      return ⟨.var name.span name.lexeme value, c₅, by omega⟩
    | .keyword .if_ => do
      let ⟨⟨s, _⟩, c₂, h₂⟩ ← conditional t.span c₁
      return ⟨s, c₂, by omega⟩
    | .keyword .while_ => do
      let ⟨condition, c₂, h₂⟩ ← expression 0 c₁
      let ⟨⟨body, close⟩, c₃, h₃⟩ ← block c₂
      return ⟨.loop (t.span.cover close) condition body, c₃, by omega⟩
    | .keyword .return_ =>
      if c₁.rest.isEmpty || c₁.nextIs fun t => t.isSeparator || t.isMark .rbrace then do
        let ⟨c₂, h₂⟩ ← statementEnd c₁
        return ⟨.ret t.span none, c₂, by omega⟩
      else do
        let ⟨value, c₂, h₂⟩ ← expression 0 c₁
        let ⟨c₃, h₃⟩ ← statementEnd c₂
        return ⟨.ret (t.span.cover value.span) (some value), c₃, by omega⟩
    | _ => do
      let ⟨e, c₂, h₂⟩ ← expression 0 c
      let ⟨c₃, h₃⟩ ← statementEnd c₂
      return ⟨.expr e, c₃, by omega⟩
termination_by 4 * c.size

/-- What follows an `if` that stands at `start`: condition, block, and an `else` that may stand on
a later line.  An `else if` is a block of one conditional.  The span is that of the whole. -/
def conditional (start : Span) (c : Cursor) : Reading (Stmt × Span) c.size := do
  let ⟨condition, c₁, h₁⟩ ← expression 0 c
  let ⟨⟨consequent, close⟩, c₂, h₂⟩ ← block c₁
  let span := start.cover close
  have hs := c₂.size_skipNewlines_le
  match c₂.skipNewlines.read? (·.isKeyword .else_) with
  | none => return ⟨(.cond span condition consequent none, span), c₂, by omega⟩
  | some ⟨_, c₃, h₃⟩ =>
    match c₃.read? (·.isKeyword .if_) with
    | some ⟨t, c₄, h₄⟩ => do
      let ⟨⟨nested, nestedSpan⟩, c₅, h₅⟩ ← conditional t.span c₄
      let span := span.cover nestedSpan
      return ⟨(.cond span condition consequent (some [nested]), span), c₅, by omega⟩
    | none => do
      let ⟨⟨alternative, close⟩, c₄, h₄⟩ ← block c₃
      let span := span.cover close
      return ⟨(.cond span condition consequent (some alternative), span), c₄, by omega⟩
termination_by 4 * c.size

end

/-! ## Declarations -/

/-- A parameter that may not stand here is reported and kept. -/
def followsVariadic (p : Parameter) : Diagnostic :=
  .error ("parameter '" ++ p.name ++ "' follows a variadic parameter") (some p.span)

def parameter (variadicSeen : Bool) (c : Cursor) : Reading Parameter c.size := do
  let ⟨variadic, c₁, h₁⟩ : Read Bool (c.size + 1) :=
    match c.read? (·.isMark .dots) with
    | some ⟨_, c₁, h₁⟩ => ⟨true, c₁, by omega⟩
    | none => ⟨false, c, c.size_lt_succ⟩
  let ⟨name, c₂, h₂⟩ ← c₁.expectName .parameterName
  let ⟨type, c₃, h₃⟩ ← typeBehind? .colon c₂
  let ⟨default, c₄, h₄⟩ ← valueBehind? 1 c₃
  let p : Parameter := ⟨name.lexeme, name.span, type, default, variadic⟩
  let report := if variadicSeen then c₄.report.add (followsVariadic p) else c₄.report
  return ⟨p, { c₄ with report := report }, by change c₄.size < c.size; omega⟩

/-- Parameters up to the parenthesis that closes their list.  Where the text ends instead, the
token read last is taken once more: it closes the list if it is a parenthesis. -/
def parameterList (variadicSeen : Bool) (c : Cursor) : Reading (List Parameter) c.size := do
  have hs := c.size_skipNewlines_le
  let ⟨p, c₁, h₁⟩ ← parameter variadicSeen c.skipNewlines
  have hs₁ := c₁.size_skipNewlines_le
  match c₁.skipNewlines.pop? with
  | some ⟨t, c₂, h₂⟩ =>
    if t.isMark .comma then do
      let ⟨others, c₃, h₃⟩ ← parameterList (variadicSeen || p.variadic) c₂
      return ⟨p :: others, c₃, by omega⟩
    else if t.isMark .rparen then return ⟨[p], c₂, by omega⟩
    else throw (c₂.fail (.expected .parameterEnd (.token t)))
  | none =>
    match c₁.skipNewlines.last with
    | some t =>
      if t.isMark .rparen then return ⟨[p], c₁.skipNewlines, by omega⟩
      else throw (c₁.fail (.expected .parameterEnd (.token t)))
    | none => throw (c₁.failHere .parameterEnd)
termination_by c.size

/-- What follows an opening parenthesis. -/
def parameters (c : Cursor) : Reading (List Parameter) c.size := do
  have hs := c.size_skipNewlines_le
  match c.skipNewlines.read? (·.isMark .rparen) with
  | some ⟨_, c₁, h₁⟩ => return ⟨[], c₁, by omega⟩
  | none => parameterList false c

/-- What follows an `fn` that stands at `start`. -/
def function (start : Span) (c : Cursor) : Reading FunctionDecl c.size := do
  let ⟨name, c₁, h₁⟩ ← c.expectName .functionName
  let ⟨_, c₂, h₂⟩ ← c₁.expectMark .lparen .parameterStart
  let ⟨parameters, c₃, h₃⟩ ← parameters c₂
  let ⟨returns, c₄, h₄⟩ ← typeBehind? .arrow c₃
  let ⟨⟨body, close⟩, c₅, h₅⟩ ← block c₄
  return ⟨⟨name.lexeme, name.span, parameters, returns, body, start.cover close⟩, c₅, by omega⟩

/-- What follows the `var` of a field. -/
def field (c : Cursor) : Reading FieldDecl c.size := do
  let ⟨name, c₁, h₁⟩ ← c.expectName .fieldName
  let ⟨type, c₂, h₂⟩ ← typeBehind? .colon c₁
  let ⟨value, c₃, h₃⟩ ← valueBehind? 0 c₂
  let ⟨c₄, h₄⟩ ← statementEnd c₃
  return ⟨⟨name.lexeme, name.span, type, value⟩, c₄, by omega⟩

/-- The fields and methods of a class, up to the brace that closes it. -/
def classBody (c : Cursor) : Reading (List FieldDecl × List FunctionDecl) c.size := do
  have hs := c.size_skipSeparators_le
  match c.skipSeparators.pop? with
  | none => throw (c.skipSeparators.failHere .classEnd)
  | some ⟨t, c₁, h₁⟩ =>
    if t.isMark .rbrace then return ⟨([], []), c₁, by omega⟩
    else if t.isKeyword .var then do
      let ⟨f, c₂, h₂⟩ ← field c₁
      let ⟨⟨fields, methods⟩, c₃, h₃⟩ ← classBody c₂
      return ⟨(f :: fields, methods), c₃, by omega⟩
    else if t.isKeyword .fn then do
      let ⟨f, c₂, h₂⟩ ← function t.span c₁
      let ⟨⟨fields, methods⟩, c₃, h₃⟩ ← classBody c₂
      return ⟨(fields, f :: methods), c₃, by omega⟩
    else throw (c.skipSeparators.failHere .classMember)
termination_by c.size

/-- What follows a `class`. -/
def classDecl (c : Cursor) : Reading ClassDecl c.size := do
  let ⟨name, c₁, h₁⟩ ← c.expectName .className
  let ⟨_, c₂, h₂⟩ ← c₁.expectMark .lbrace .classStart
  let ⟨⟨fields, methods⟩, c₃, h₃⟩ ← classBody c₂
  return ⟨⟨name.lexeme, name.span, fields, methods⟩, c₃, by omega⟩

/-- What follows the `var` or `const` of a module. -/
def global (constant : Bool) (c : Cursor) : Reading GlobalDecl c.size := do
  let ⟨name, c₁, h₁⟩ ← c.expectName .bindingName
  let ⟨type, c₂, h₂⟩ ← typeBehind? .colon c₁
  let ⟨_, c₃, h₃⟩ ← c₂.expectMark .equal .globalEqual
  let ⟨value, c₄, h₄⟩ ← expression 0 c₃
  let ⟨c₅, h₅⟩ ← statementEnd c₄
  return ⟨⟨constant, name.lexeme, name.span, type, value⟩, c₅, by omega⟩

def item (c : Cursor) : Reading Item c.size :=
  match c.pop? with
  | none => throw (c.failHere .item)
  | some ⟨t, c₁, h₁⟩ =>
    match t.kind with
    | .keyword .fn => do
      let ⟨f, c₂, h₂⟩ ← function t.span c₁
      return ⟨.function f, c₂, by omega⟩
    | .keyword .class_ => do
      let ⟨d, c₂, h₂⟩ ← classDecl c₁
      return ⟨.class_ d, c₂, by omega⟩
    | .keyword .var => do
      let ⟨g, c₂, h₂⟩ ← global false c₁
      return ⟨.global g, c₂, by omega⟩
    | .keyword .const => do
      let ⟨g, c₂, h₂⟩ ← global true c₁
      return ⟨.global g, c₂, by omega⟩
    | _ => throw (c.failHere .item)

/-- The items up to the end of the text, and what was reported on the way. -/
def items (c : Cursor) : Except ParseFailure (List Item × Report) := do
  have _ := c.size_skipSeparators_le
  if c.skipSeparators.rest.isEmpty then return ([], c.report)
  else
    let ⟨i, c₁, _⟩ ← item c.skipSeparators
    let (others, report) ← items c₁
    return (i :: others, report)
termination_by c.size

end Reading

/-- The module that a row of tokens spells. -/
def Module.ofTokens (row : TokenRow) : Except ParseFailure (Module × Report) := do
  let (items, report) ← Reading.items (Cursor.ofRow row)
  return (⟨items⟩, report)

end PathTyping
