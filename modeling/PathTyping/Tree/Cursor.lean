import PathTyping.Token.Scan
import PathTyping.Diagnostic
import PathTyping.Text.Quoted

/-!
# Reading along a row of tokens

A cursor stands between the token read last and the tokens to come.  Readers hand back a `Read`:
a value, the cursor behind it, and the fact that tokens were used up, on which their recursion
rests.

1. `size_skipNewlines_le`, `size_skipSeparators_le`: skipping never goes back.
2. `expect_eq_ok`: a token is read exactly when it is the one expected.
-/

namespace PathTyping

/-! ## What can go wrong -/

/-- What a reader was looking for. -/
inductive Expectation
  | item
  | bindingName
  | globalEqual
  | functionName
  | parameterStart
  | parameterName
  | parameterEnd
  | className
  | classStart
  | classMember
  | classEnd
  | fieldName
  | typeName
  | blockStart
  | blockEnd
  | variableEqual
  | statementEnd
  | operand
  | groupEnd
  | argumentsEnd
  | memberName
  | indexEnd
  | expressionEnd
  deriving DecidableEq, Inhabited

def Expectation.text : Expectation → String
  | .item => "expected 'fn', 'class', 'var' or 'const' at module level"
  | .bindingName => "expected a name after 'var'"
  | .globalEqual => "expected '=' in module-level binding"
  | .functionName => "expected function name after 'fn'"
  | .parameterStart => "expected '(' after function name"
  | .parameterName => "expected parameter name"
  | .parameterEnd => "expected ',' or ')' in parameter list"
  | .className => "expected class name after 'class'"
  | .classStart => "expected '\x7b' to start class body"
  | .classMember => "expected 'var' or 'fn' inside class body"
  | .classEnd => "unterminated class body, expected '\x7d'"
  | .fieldName => "expected field name"
  | .typeName => "expected a type name"
  | .blockStart => "expected '\x7b' to start block"
  | .blockEnd => "unterminated block, expected '\x7d'"
  | .variableEqual => "expected '=' after variable name"
  | .statementEnd => "expected end of statement"
  | .operand => "expected an expression"
  | .groupEnd => "expected ')' after expression"
  | .argumentsEnd => "expected ')' to close argument list"
  | .memberName => "expected member name after '.'"
  | .indexEnd => "expected ']' after index"
  | .expressionEnd => "expected end of expression"

/-- What stood there instead. -/
inductive Found
  | token (t : Token)
  | finish (place : Place)
  deriving Inhabited

namespace Found

def place : Found → Place
  | token t => t.place
  | finish p => p

def span : Found → Span
  | token t => t.span
  | finish p => Token.spanOf p ""

def text : Found → String
  | token t => "'" ++ Text.escapeLexeme t.lexeme ++ "'"
  | finish _ => "end of input"

end Found

/-- Why a row of tokens is no tree. -/
inductive ParseError
  | expected (what : Expectation) (found : Found)
  /-- What stands left of `=` cannot be assigned to. -/
  | invalidTarget (span : Span)
  /-- An expression is looked for where there is no token at all. -/
  | nothingToRead
  deriving Inhabited

namespace ParseError

/-- The error without its place. -/
def finding : ParseError → String
  | expected what found => what.text ++ " (found " ++ found.text ++ ")"
  | invalidTarget _ => "invalid assignment target"
  | nothingToRead => "there is no expression"

def span : ParseError → Span
  | expected _ found => found.span
  | invalidTarget s => s
  | nothingToRead => Span.absent

def message (e : ParseError) : String :=
  e.finding ++ " at " ++ (Place.mk e.span.line e.span.column).text

def diagnostic (e : ParseError) : Diagnostic := .error e.finding (some e.span)

end ParseError

/-- A failed reading: the error, and everything that was reported up to it. -/
structure ParseFailure where
  error : ParseError
  report : Report
  deriving Inhabited

/-! ## Cursors -/

structure Cursor where
  last : Option Token
  rest : List Token
  finish : Place
  report : Report

/-- The number of tokens to come. -/
def Cursor.size (c : Cursor) : Nat := c.rest.length

/-- A value read from a row of tokens, with fewer than `n` tokens left behind it. -/
structure Read (α : Type) (n : Nat) where
  value : α
  next : Cursor
  bound : next.size < n

abbrev Reading (α : Type) (n : Nat) := Except ParseFailure (Read α n)

namespace Cursor

def ofRow (row : TokenRow) : Cursor := ⟨none, row.tokens, row.finish, Report.empty⟩

def found (c : Cursor) : Found :=
  match c.rest with
  | [] => .finish c.finish
  | t :: _ => .token t

/-- Gives up with `e`. -/
def fail (c : Cursor) (e : ParseError) : ParseFailure := ⟨e, c.report.add e.diagnostic⟩

/-- Gives up at the token to come. -/
def failHere (c : Cursor) (what : Expectation) : ParseFailure := c.fail (.expected what c.found)

/-- Gives up for want of an operand at the end of the text: the token read last is to blame. -/
def failOperand (c : Cursor) : ParseFailure :=
  match c.last with
  | some t => c.fail (.expected .operand (.token t))
  | none => ⟨.nothingToRead, c.report⟩

/-- Reads the next token, whatever it is. -/
def pop? (c : Cursor) : Option (Read Token c.size) :=
  match h : c.rest with
  | [] => none
  | t :: rest => some ⟨t, { c with last := some t, rest := rest }, by simp [size, h]⟩

/-- Reads the next token if `p` holds of it. -/
def read? (c : Cursor) (p : Token → Bool) : Option (Read Token c.size) :=
  match c.pop? with
  | some r => if p r.value then some r else none
  | none => none

def nextIs (c : Cursor) (p : Token → Bool) : Bool :=
  match c.rest with
  | [] => false
  | t :: _ => p t

/-- Reads the next token, of which `p` must hold. -/
def expect (c : Cursor) (p : Token → Bool) (what : Expectation) : Reading Token c.size :=
  match c.read? p with
  | some r => .ok r
  | none => .error (c.failHere what)

def expectMark (c : Cursor) (m : Mark) (what : Expectation) : Reading Token c.size :=
  c.expect (·.isMark m) what

def isIdentifier (t : Token) : Bool :=
  match t.kind with
  | .identifier => true
  | _ => false

def expectName (c : Cursor) (what : Expectation) : Reading Token c.size :=
  c.expect isIdentifier what

/-- Passes over the tokens of which `p` holds. -/
def skip (c : Cursor) (p : Token → Bool) : Cursor :=
  { c with
    last := (c.rest.takeWhile p).getLast?.or c.last
    rest := c.rest.dropWhile p }

def skipNewlines (c : Cursor) : Cursor := c.skip Token.isNewline

def skipSeparators (c : Cursor) : Cursor := c.skip Token.isSeparator

theorem size_skip_le (c : Cursor) (p : Token → Bool) : (c.skip p).size ≤ c.size :=
  length_dropWhile_le p c.rest

theorem size_skipNewlines_le (c : Cursor) : c.skipNewlines.size ≤ c.size := c.size_skip_le _

theorem size_skipSeparators_le (c : Cursor) : c.skipSeparators.size ≤ c.size := c.size_skip_le _

theorem size_lt_succ (c : Cursor) : c.size < c.size + 1 := Nat.lt_succ_self _

theorem size_behind_lt {c : Cursor} {t : Token} {rest : List Token} (h : c.rest = t :: rest) :
    Cursor.size { c with last := some t, rest := rest } < c.size := by simp [size, h]

theorem pop?_cons {c : Cursor} {t : Token} {rest : List Token} (h : c.rest = t :: rest) :
    c.pop? = some ⟨t, { c with last := some t, rest := rest }, size_behind_lt h⟩ := by
  obtain ⟨last, rest', finish, report⟩ := c
  cases h
  rfl

theorem pop?_nil {c : Cursor} (h : c.rest = []) : c.pop? = none := by
  obtain ⟨last, rest, finish, report⟩ := c
  cases h
  rfl

theorem expect_eq_ok {c : Cursor} {p : Token → Bool} {what : Expectation} {t : Token}
    {rest : List Token} (h : c.rest = t :: rest) (ht : p t = true) :
    c.expect p what =
      .ok ⟨t, { c with last := some t, rest := rest }, size_behind_lt h⟩ := by
  simp [expect, read?, pop?_cons h, ht]

end Cursor

end PathTyping
