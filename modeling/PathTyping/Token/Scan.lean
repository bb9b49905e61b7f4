import PathTyping.Token
import PathTyping.Decimal.Text

/-!
# From text to tokens

A text is read from left to right.  Blanks and comments are passed over; anything else starts a
token, which takes the longest run of characters that it can.

1. `read_split`: a token's lexeme and what is left make up the text it was read from.
2. `ofText_of_eq_ofList`: what is made of a text is made of its characters.
3. `scan_nil`: the empty text has no token.
-/

namespace PathTyping

/-- Why a text is no row of tokens. -/
inductive ScanError
  | unexpectedCharacter (c : Char) (place : Place)
  | unterminatedString (place : Place)
  | invalidNumber (lexeme : String) (place : Place)
  deriving DecidableEq, Inhabited

namespace ScanError

def place : ScanError → Place
  | .unexpectedCharacter _ p => p
  | .unterminatedString p => p
  | .invalidNumber _ p => p

def message : ScanError → String
  | .unexpectedCharacter c p =>
    "unexpected character '" ++ String.singleton c ++ "' at " ++ p.text
  | .unterminatedString p => "unterminated string literal starting at " ++ p.text
  | .invalidNumber lexeme p => "invalid number literal '" ++ lexeme ++ "' at " ++ p.text

end ScanError

/-! ## Spellings -/

namespace Mark

def spelling : Mark → List Char
  | .lparen => ['(']
  | .rparen => [')']
  | .lbrace => ['\x7b']
  | .rbrace => ['\x7d']
  | .lbracket => ['[']
  | .rbracket => [']']
  | .comma => [',']
  | .dot => ['.']
  | .dots => ['.', '.', '.']
  | .colon => [':']
  | .semicolon => [';']
  | .equal => ['=']
  | .doubleEqual => ['=', '=']
  | .bang => ['!']
  | .bangEqual => ['!', '=']
  | .greater => ['>']
  | .greaterEqual => ['>', '=']
  | .less => ['<']
  | .lessEqual => ['<', '=']
  | .plus => ['+']
  | .minus => ['-']
  | .star => ['*']
  | .slash => ['/']
  | .percent => ['%']
  | .arrow => ['-', '>']

/-- Every mark, a longer spelling before its beginnings. -/
def all : List Mark :=
  [.dots, .arrow, .doubleEqual, .bangEqual, .greaterEqual, .lessEqual, .lparen, .rparen, .lbrace,
    .rbrace, .lbracket, .rbracket, .comma, .dot, .colon, .semicolon, .equal, .bang, .greater,
    .less, .plus, .minus, .star, .slash, .percent]

/-- The longest mark that the text starts with. -/
def read? (cs : List Char) : Option Mark := all.find? fun m => m.spelling.isPrefixOf cs

theorem spelling_ne_nil (m : Mark) : m.spelling ≠ [] := by cases m <;> simp [spelling]

theorem mem_all (m : Mark) : m ∈ all := by cases m <;> decide

theorem isPrefix_of_read? {cs : List Char} {m : Mark} (h : read? cs = some m) :
    m.spelling <+: cs := by
  have found : m.spelling.isPrefixOf cs = true := by
    rw [read?] at h
    simpa using List.find?_some h
  exact List.isPrefixOf_iff_prefix.1 found

end Mark

def isBlank (c : Char) : Bool := c == ' ' || c == '\t' || c == '\r'

def isWordStart (c : Char) : Bool :=
  ('a' ≤ c && c ≤ 'z') || ('A' ≤ c && c ≤ 'Z') || c == '_'

def isWordPart (c : Char) : Bool := isWordStart c || Decimal.isDigit c

/-! ## Single tokens -/

/-- A token read off the front of a text. -/
structure Piece where
  kind : TokenKind
  lexeme : List Char
  rest : List Char

/-- The character that a backslash and `c` stand for. -/
def unescape (c : Char) : Char :=
  if c = 'n' then '\n' else if c = 'r' then '\r' else if c = 't' then '\t' else c

/-- A string behind its opening quote: its characters, its text up to the closing quote, and what
follows.  A newline ends it early unless a backslash stands before it. -/
def stringBody? : List Char → Option (List Char × List Char × List Char)
  | [] => none
  | '"' :: rest => some ([], ['"'], rest)
  | '\n' :: _ => none
  | '\\' :: c :: cs =>
    (stringBody? cs).map fun (value, lexeme, rest) => (unescape c :: value, '\\' :: c :: lexeme, rest)
  | c :: cs => (stringBody? cs).map fun (value, lexeme, rest) => (c :: value, c :: lexeme, rest)

/-- The digits, underscores and at most one point of a number; a point needs a digit behind it. -/
def numberRun : Bool → List Char → List Char × List Char
  | _, [] => ([], [])
  | pointed, '.' :: c :: cs =>
    if !pointed && Decimal.isDigit c then
      let run := numberRun true (c :: cs)
      ('.' :: run.1, run.2)
    else ([], '.' :: c :: cs)
  | pointed, c :: cs =>
    if Decimal.isDigit c || c == '_' then
      let run := numberRun pointed cs
      (c :: run.1, run.2)
    else ([], c :: cs)

/-- Words are truth values, keywords or names. -/
def wordKind (text : String) : TokenKind :=
  if text = "true" then .boolean true
  else if text = "false" then .boolean false
  else
    match Keyword.ofText? text with
    | some k => .keyword k
    | none => .identifier

namespace Piece

/-- The token that `c`, standing at `place`, starts. -/
def read (place : Place) (c : Char) (cs : List Char) : Except ScanError Piece :=
  if c = '\n' then .ok ⟨.newline, [c], cs⟩
  else if c = '"' then
    match stringBody? cs with
    | some (value, lexeme, rest) => .ok ⟨.string (String.ofList value), c :: lexeme, rest⟩
    | none => .error (.unterminatedString place)
  else if Decimal.isDigit c then
    let run := numberRun false cs
    let lexeme := c :: run.1
    match Decimal.read? (lexeme.filter (· != '_')) with
    | some value => .ok ⟨.number value, lexeme, run.2⟩
    | none => .error (.invalidNumber (String.ofList lexeme) place)
  else if isWordStart c then
    let lexeme := c :: cs.takeWhile isWordPart
    .ok ⟨wordKind (String.ofList lexeme), lexeme, cs.dropWhile isWordPart⟩
  else
    match Mark.read? (c :: cs) with
    | some m => .ok ⟨.mark m, m.spelling, (c :: cs).drop m.spelling.length⟩
    | none => .error (.unexpectedCharacter c place)

theorem stringBody?_split {cs value lexeme rest : List Char}
    (h : stringBody? cs = some (value, lexeme, rest)) : lexeme ++ rest = cs := by
  fun_induction stringBody? cs generalizing value lexeme rest with
  | case1 => simp at h
  | case2 => simp at h; simp [← h.2.1, ← h.2.2]
  | case3 => simp at h
  | case4 c cs ih =>
    obtain ⟨⟨v, l, r⟩, hs, he⟩ := Option.map_eq_some_iff.1 h
    simp only [Prod.mk.injEq] at he
    simp [← he.2.1, ← he.2.2, ih hs]
  | case5 c cs _ _ _ ih =>
    obtain ⟨⟨v, l, r⟩, hs, he⟩ := Option.map_eq_some_iff.1 h
    simp only [Prod.mk.injEq] at he
    simp [← he.2.1, ← he.2.2, ih hs]

theorem numberRun_split (pointed : Bool) (cs : List Char) :
    (numberRun pointed cs).1 ++ (numberRun pointed cs).2 = cs := by
  fun_induction numberRun pointed cs <;> simp_all <;> assumption

theorem read_split {place : Place} {c : Char} {cs : List Char} {p : Piece}
    (h : read place c cs = .ok p) : p.lexeme ++ p.rest = c :: cs := by
  unfold read at h
  split at h
  · cases h; rfl
  split at h
  · split at h
    · cases h; simp [stringBody?_split (by assumption)]
    · cases h
  split at h
  · simp only at h
    split at h
    · cases h; simp [numberRun_split]
    · cases h
  split at h
  · cases h; simp
  · split at h
    · rename_i m hm
      cases h
      obtain ⟨t, ht⟩ := Mark.isPrefix_of_read? hm
      simp [← ht]
    · cases h

theorem read_lexeme_ne_nil {place : Place} {c : Char} {cs : List Char} {p : Piece}
    (h : read place c cs = .ok p) : p.lexeme ≠ [] := by
  unfold read at h
  split at h
  · cases h; simp
  split at h
  · split at h <;> cases h
    simp
  split at h
  · simp only at h
    split at h <;> cases h
    simp
  split at h
  · cases h; simp
  · split at h <;> cases h
    exact Mark.spelling_ne_nil _

theorem read_rest_lt {place : Place} {c : Char} {cs : List Char} {p : Piece}
    (h : read place c cs = .ok p) : p.rest.length < (c :: cs).length := by
  have split := congrArg List.length (read_split h)
  have := List.length_pos_iff.2 (read_lexeme_ne_nil h)
  rw [List.length_append] at split
  omega

end Piece

/-! ## Texts -/

def isCommentPart (c : Char) : Bool := c != '\n'

theorem length_dropWhile_le {α : Type} (p : α → Bool) (l : List α) :
    (l.dropWhile p).length ≤ l.length :=
  (List.dropWhile_suffix p).length_le

namespace TokenRow

/-- The row that starts with `t`. -/
def cons (t : Token) (row : TokenRow) : TokenRow := ⟨t :: row.tokens, row.finish⟩

/-- The tokens of the text that starts at `place`. -/
def scan (place : Place) (text : List Char) : Except ScanError TokenRow :=
  match text with
  | [] => .ok ⟨[], place⟩
  | c :: cs =>
    if isBlank c then scan (place.next c) cs
    else if c = '#' then
      scan (place.after (c :: cs.takeWhile isCommentPart)) (cs.dropWhile isCommentPart)
    else
      match h : Piece.read place c cs with
      | .error e => .error e
      | .ok p =>
        have := Piece.read_rest_lt h
        (scan (place.after p.lexeme) p.rest).map (cons ⟨p.kind, String.ofList p.lexeme, place⟩)
termination_by text.length
decreasing_by
  · simp
  · exact Nat.lt_succ_of_le (length_dropWhile_le _ _)
  · assumption

def ofText (text : String) : Except ScanError TokenRow := scan Place.start text.toList

/-- A text that is given by its characters need not be decoded. -/
theorem ofText_of_eq_ofList {text : String} {cs : List Char} (h : text = String.ofList cs) :
    ofText text = scan Place.start cs := by
  rw [h, ofText, String.toList_ofList]

theorem ofText_of_eq_append {text : String} {cs ds : List Char}
    (h : text = String.ofList cs ++ String.ofList ds) :
    ofText text = scan Place.start (cs ++ ds) :=
  ofText_of_eq_ofList (h.trans String.ofList_append.symm)

@[simp] theorem scan_nil (place : Place) : scan place [] = .ok ⟨[], place⟩ := by
  unfold scan; rfl

end TokenRow

end PathTyping
