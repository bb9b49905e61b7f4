import PathTyping.Span

/-!
# Tokens

A text is a row of tokens and the place behind its last character.  A newline is a token, since it
ends a statement; blanks and comments are none.

1. `span_line`: a token's span stays on the line where the token starts.
-/

namespace PathTyping

/-- The reserved words, the names of the two truth values apart. -/
inductive Keyword
  | var
  | const
  | fn
  | class_
  | if_
  | else_
  | while_
  | return_
  | and
  | or
  | not
  | nil
  | self
  deriving DecidableEq, Inhabited

namespace Keyword

def all : List Keyword :=
  [.var, .const, .fn, .class_, .if_, .else_, .while_, .return_, .and, .or, .not, .nil, .self]

def text : Keyword → String
  | .var => "var"
  | .const => "const"
  | .fn => "fn"
  | .class_ => "class"
  | .if_ => "if"
  | .else_ => "else"
  | .while_ => "while"
  | .return_ => "return"
  | .and => "and"
  | .or => "or"
  | .not => "not"
  | .nil => "nil"
  | .self => "self"

def ofText? (text : String) : Option Keyword := all.find? (·.text == text)

theorem ofText?_text (k : Keyword) : ofText? k.text = some k := by cases k <;> decide

end Keyword

/-- Punctuation. -/
inductive Mark
  | lparen
  | rparen
  | lbrace
  | rbrace
  | lbracket
  | rbracket
  | comma
  | dot
  | dots
  | colon
  | semicolon
  | equal
  | doubleEqual
  | bang
  | bangEqual
  | greater
  | greaterEqual
  | less
  | lessEqual
  | plus
  | minus
  | star
  | slash
  | percent
  | arrow
  deriving DecidableEq, Inhabited

inductive TokenKind
  | identifier
  | number (value : Float)
  | string (value : String)
  | boolean (value : Bool)
  | keyword (word : Keyword)
  | newline
  | mark (mark : Mark)
  deriving Inhabited

structure Token where
  kind : TokenKind
  lexeme : String
  place : Place
  deriving Inhabited

namespace Token

def isMark (t : Token) (m : Mark) : Bool :=
  match t.kind with
  | .mark n => n == m
  | _ => false

def isKeyword (t : Token) (k : Keyword) : Bool :=
  match t.kind with
  | .keyword l => l == k
  | _ => false

def isNewline (t : Token) : Bool :=
  match t.kind with
  | .newline => true
  | _ => false

/-- Newlines and semicolons stand between statements. -/
def isSeparator (t : Token) : Bool := t.isNewline || t.isMark .semicolon

/-- The span that starts at `place` and is as many columns wide as `lexeme` has characters, but at
least one; it stays on its line even where the lexeme runs on to the next. -/
def spanOf (place : Place) (lexeme : String) : Span :=
  ⟨place.line, place.column, place.line, place.column + (max lexeme.length 1 - 1)⟩

def span (t : Token) : Span := spanOf t.place t.lexeme

@[simp] theorem span_line (t : Token) : t.span.line = t.place.line := rfl

@[simp] theorem span_column (t : Token) : t.span.column = t.place.column := rfl

theorem span_endLine (t : Token) : t.span.endLine = t.span.line := rfl

end Token

/-- The tokens of a text, and the place where the text ends. -/
structure TokenRow where
  tokens : List Token
  finish : Place
  deriving Inhabited

end PathTyping
