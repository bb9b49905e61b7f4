import PathTyping.Token
import PathTyping.Text.Quoted
import PathTyping.Decimal.Text

/-!
# Token dumps

Tokens as a dump shows them, one to a line, with a last line for the end of the text.

1. `length_dump`: a dump has a line for each token and one more.
-/

namespace PathTyping

def Keyword.label : Keyword → String
  | .var => "Var"
  | .const => "Const"
  | .fn => "Fn"
  | .class_ => "Class"
  | .if_ => "If"
  | .else_ => "Else"
  | .while_ => "While"
  | .return_ => "Return"
  | .and => "And"
  | .or => "Or"
  | .not => "Not"
  | .nil => "Nil"
  | .self => "SelfValue"

def Mark.label : Mark → String
  | .lparen => "LParen"
  | .rparen => "RParen"
  | .lbrace => "LBrace"
  | .rbrace => "RBrace"
  | .lbracket => "LBracket"
  | .rbracket => "RBracket"
  | .comma => "Comma"
  | .dot => "Dot"
  | .dots => "DotDotDot"
  | .colon => "Colon"
  | .semicolon => "Semicolon"
  | .equal => "Equal"
  | .doubleEqual => "DoubleEqual"
  | .bang => "Bang"
  | .bangEqual => "BangEqual"
  | .greater => "Greater"
  | .greaterEqual => "GreaterEqual"
  | .less => "Less"
  | .lessEqual => "LessEqual"
  | .plus => "Plus"
  | .minus => "Minus"
  | .star => "Star"
  | .slash => "Slash"
  | .percent => "Percent"
  | .arrow => "Arrow"

/-- A kind with what it carries. -/
def TokenKind.describe : TokenKind → String
  | .identifier => "Identifier"
  | .number x => "NumberLiteral(" ++ Decimal.write .dump x ++ ")"
  | .string s => "StringLiteral(" ++ Text.quote s ++ ")"
  | .boolean b => "BooleanLiteral(" ++ (if b then "true" else "false") ++ ")"
  | .keyword k => "Keyword(" ++ k.label ++ ")"
  | .newline => "Newline"
  | .mark m => m.label

def dumpLine (kind lexeme : String) (place : Place) : String :=
  "Token \x7b kind: " ++ kind ++ ", lexeme: " ++ Text.quote lexeme ++ ", line: " ++
    toString place.line ++ ", column: " ++ toString place.column ++ " \x7d"

def TokenRow.dump (row : TokenRow) : List String :=
  row.tokens.map (fun t => dumpLine t.kind.describe t.lexeme t.place) ++
    [dumpLine "Eof" "" row.finish]

@[simp] theorem TokenRow.length_dump (row : TokenRow) :
    row.dump.length = row.tokens.length + 1 := by simp [dump]

end PathTyping
