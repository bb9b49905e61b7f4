import PathTyping.Decimal.Text

/-!
# JSON documents

Options are read from JSON and results can be written as JSON.  Reading is strict and keeps the
entries of an object as they stand, repeated keys included.  A document is first cut into lexemes;
these drive a machine whose stack holds the arrays and objects that are still open, so a document
is read in one pass and nesting needs no recursion.

1. `read?_eq_some_iff`: a text is a document when its lexemes drive the machine to its end.
2. `run?_nil`: the machine has read a document when one value is complete and nothing is open.
-/

namespace PathTyping

inductive Json
  | null
  | boolean (value : Bool)
  /-- A number without sign, point and exponent. -/
  | natural (value : Nat)
  /-- Any other number, as it was written. -/
  | number (text : String)
  | string (value : String)
  | array (items : List Json)
  | object (entries : List (String × Json))
  deriving Inhabited

namespace Json

inductive Lexeme
  | openArray
  | closeArray
  | openObject
  | closeObject
  | comma
  | colon
  | scalar (value : Json)

/-! ## Lexemes -/

def isBlank (c : Char) : Bool := c == ' ' || c == '\t' || c == '\r' || c == '\n'

def hexDigit? (c : Char) : Option Nat :=
  if Decimal.isDigit c then some (c.toNat - '0'.toNat)
  else if 'a' ≤ c && c ≤ 'f' then some (c.toNat - 'a'.toNat + 10)
  else if 'A' ≤ c && c ≤ 'F' then some (c.toNat - 'A'.toNat + 10)
  else none

def hex4? (a b c d : Char) : Option Nat := do
  let a ← hexDigit? a
  let b ← hexDigit? b
  let c ← hexDigit? c
  let d ← hexDigit? d
  return ((a * 16 + b) * 16 + c) * 16 + d

/-- What a backslash and `c` stand for, `u` apart. -/
def unescape? (c : Char) : Option Char :=
  match c with
  | '"' => some '"'
  | '\\' => some '\\'
  | '/' => some '/'
  | 'b' => some '\x08'
  | 'f' => some '\x0c'
  | 'n' => some '\n'
  | 'r' => some '\r'
  | 't' => some '\t'
  | _ => none

/-- A string behind its opening quote and what follows its closing quote.  Code points above four
digits are written as a pair of surrogates; half a pair is refused. -/
def stringBody? : List Char → Option (List Char × List Char)
  | [] => none
  | '"' :: rest => some ([], rest)
  | '\\' :: 'u' :: a :: b :: c :: d :: rest =>
    match hex4? a b c d with
    | none => none
    | some unit =>
      if unit < 0xD800 || 0xE000 ≤ unit then
        (stringBody? rest).map fun (text, rest) => (Char.ofNat unit :: text, rest)
      else if 0xDC00 ≤ unit then none
      else
        match rest with
        | '\\' :: 'u' :: e :: f :: g :: h :: rest =>
          match hex4? e f g h with
          | none => none
          | some low =>
            if 0xDC00 ≤ low && low < 0xE000 then
              let c := Char.ofNat (0x10000 + (unit - 0xD800) * 0x400 + (low - 0xDC00))
              (stringBody? rest).map fun (text, rest) => (c :: text, rest)
            else none
        | _ => none
  | '\\' :: c :: rest =>
    match unescape? c with
    | none => none
    | some c => (stringBody? rest).map fun (text, rest) => (c :: text, rest)
  | c :: rest =>
    if c.toNat < 0x20 then none
    else (stringBody? rest).map fun (text, rest) => (c :: text, rest)

/-- An optional sign, digits without a leading zero, an optional fraction and exponent. -/
def isNumber (text : List Char) : Bool :=
  let body := match text with
    | '-' :: tail => tail
    | _ => text
  let whole := body.takeWhile Decimal.isDigit
  let rest := body.dropWhile Decimal.isDigit
  let wholeOk := match whole with
    | [] => false
    | ['0'] => true
    | c :: _ => c != '0'
  let (fractionOk, rest) := match rest with
    | '.' :: tail =>
      (!(tail.takeWhile Decimal.isDigit).isEmpty, tail.dropWhile Decimal.isDigit)
    | _ => (true, rest)
  let exponentOk := match rest with
    | [] => true
    | 'e' :: tail | 'E' :: tail => (Decimal.readExponent? tail).isSome
    | _ => false
  wholeOk && fractionOk && exponentOk

def isNumberPart (c : Char) : Bool :=
  Decimal.isDigit c || c == '-' || c == '+' || c == '.' || c == 'e' || c == 'E'

def numberOf? (text : List Char) : Option Json :=
  if isNumber text then
    if text.all Decimal.isDigit then some (.natural (Decimal.natural text))
    else some (.number (String.ofList text))
  else none

def isLetter (c : Char) : Bool := 'a' ≤ c && c ≤ 'z'

def wordOf? (text : List Char) : Option Json :=
  if text = ['t', 'r', 'u', 'e'] then some (.boolean true)
  else if text = ['f', 'a', 'l', 's', 'e'] then some (.boolean false)
  else if text = ['n', 'u', 'l', 'l'] then some .null
  else none

/-- The lexeme that `c` starts and what follows it. -/
def lexeme? (c : Char) (cs : List Char) : Option (Lexeme × List Char) :=
  if c = '[' then some (.openArray, cs)
  else if c = ']' then some (.closeArray, cs)
  else if c = '\x7b' then some (.openObject, cs)
  else if c = '\x7d' then some (.closeObject, cs)
  else if c = ',' then some (.comma, cs)
  else if c = ':' then some (.colon, cs)
  else if c = '"' then
    (stringBody? cs).map fun (text, rest) => (.scalar (.string (String.ofList text)), rest)
  else if isNumberPart c then
    (numberOf? (c :: cs.takeWhile isNumberPart)).map fun n =>
      (.scalar n, cs.dropWhile isNumberPart)
  else
    (wordOf? (c :: cs.takeWhile isLetter)).map fun w => (.scalar w, cs.dropWhile isLetter)

theorem stringBody?_length_lt {cs : List Char} {text rest : List Char}
    (h : stringBody? cs = some (text, rest)) : rest.length < cs.length := by
  fun_induction stringBody? cs generalizing text rest with
  | case1 => simp at h
  | case2 => simp at h; simp [h.2]
  | case3 => simp at h
  | case4 a b c d rest' unit _ _ ih =>
    obtain ⟨⟨t, r⟩, hs, he⟩ := Option.map_eq_some_iff.1 h
    have := ih hs
    simp only [Prod.mk.injEq] at he
    simp only [List.length_cons, ← he.2]; omega
  | case5 => simp at h
  | case6 => simp at h
  | case7 =>
    rename_i ih
    obtain ⟨⟨t, r⟩, hs, he⟩ := Option.map_eq_some_iff.1 h
    have := ih hs
    simp only [Prod.mk.injEq] at he
    simp only [List.length_cons, ← he.2]; omega
  | case8 => simp at h
  | case9 => simp at h
  | case10 => simp at h
  | case11 c rest' _ c' _ ih =>
    obtain ⟨⟨t, r⟩, hs, he⟩ := Option.map_eq_some_iff.1 h
    have := ih hs
    simp only [Prod.mk.injEq] at he
    simp only [List.length_cons, ← he.2]; omega
  | case12 => simp at h
  | case13 c rest' _ _ _ _ ih =>
    obtain ⟨⟨t, r⟩, hs, he⟩ := Option.map_eq_some_iff.1 h
    have := ih hs
    simp only [Prod.mk.injEq] at he
    simp only [List.length_cons, ← he.2]; omega

/-- No more is left to read than there was. -/
def Shortens (cs : List Char) (found : Option (Lexeme × List Char)) : Prop :=
  ∀ l rest, found = some (l, rest) → rest.length ≤ cs.length

theorem shortens_mark (cs : List Char) (l : Lexeme) : Shortens cs (some (l, cs)) := by
  rintro _ _ ⟨⟩
  exact Nat.le_refl _

theorem shortens_map {α : Type} {cs left : List Char} (found : Option α) (f : α → Lexeme)
    (le : left.length ≤ cs.length) : Shortens cs (found.map fun a => (f a, left)) := by
  intro l rest h
  obtain ⟨_, _, he⟩ := Option.map_eq_some_iff.1 h
  cases he
  exact le

theorem shortens_lexeme? (c : Char) (cs : List Char) : Shortens cs (lexeme? c cs) := by
  have run (p : Char → Bool) := (List.dropWhile_suffix p (l := cs)).length_le
  unfold lexeme?
  -- `split` would go through what is left of the chain once more at each mark.
  iterate 6 refine iteInduction (fun _ => shortens_mark cs _) fun _ => ?_
  refine iteInduction (fun _ => ?_) fun _ => iteInduction (fun _ => ?_) fun _ => ?_
  · intro l rest h
    obtain ⟨⟨t, r⟩, hs, he⟩ := Option.map_eq_some_iff.1 h
    cases he
    exact Nat.le_of_lt (stringBody?_length_lt hs)
  · exact shortens_map _ _ (run _)
  · exact shortens_map _ _ (run _)

theorem lexeme?_length_le {c : Char} {cs rest : List Char} {l : Lexeme}
    (h : lexeme? c cs = some (l, rest)) : rest.length ≤ cs.length :=
  shortens_lexeme? c cs l rest h

def lexemes? (text : List Char) : Option (List Lexeme) :=
  match text with
  | [] => some []
  | c :: cs =>
    if isBlank c then lexemes? cs
    else
      match h : lexeme? c cs with
      | none => none
      | some (l, rest) =>
        have := lexeme?_length_le h
        (lexemes? rest).map (l :: ·)
termination_by text.length
decreasing_by
  · simp
  · simp only [List.length_cons]; omega

/-! ## Documents -/

/-- An array or object that is still open, its latest entry first. -/
inductive Frame
  | array (items : List Json)
  | object (entries : List (String × Json)) (key : String)

/-- What may come next. -/
inductive Stage
  | value
  | firstItem
  | firstKey
  | key (entries : List (String × Json))
  | colon (entries : List (String × Json)) (key : String)
  | complete (value : Json)

/-- A value starts. -/
def beginValue? (l : Lexeme) (frames : List Frame) : Option (Stage × List Frame) :=
  match l with
  | .openArray => some (.firstItem, frames)
  | .openObject => some (.firstKey, frames)
  | .scalar v => some (.complete v, frames)
  | _ => none

def step? (stage : Stage) (frames : List Frame) (l : Lexeme) : Option (Stage × List Frame) :=
  match stage, l with
  | .value, l => beginValue? l frames
  | .firstItem, .closeArray => some (.complete (.array []), frames)
  | .firstItem, l => beginValue? l (.array [] :: frames)
  | .firstKey, .closeObject => some (.complete (.object []), frames)
  | .firstKey, .scalar (.string k) => some (.colon [] k, frames)
  | .key entries, .scalar (.string k) => some (.colon entries k, frames)
  | .colon entries k, .colon => some (.value, .object entries k :: frames)
  | .complete v, .comma =>
    match frames with
    | .array items :: frames => some (.value, .array (v :: items) :: frames)
    | .object entries k :: frames => some (.key ((k, v) :: entries), frames)
    | [] => none
  | .complete v, .closeArray =>
    match frames with
    | .array items :: frames => some (.complete (.array (v :: items).reverse), frames)
    | _ => none
  | .complete v, .closeObject =>
    match frames with
    | .object entries k :: frames => some (.complete (.object ((k, v) :: entries).reverse), frames)
    | _ => none
  | _, _ => none

def run? : Stage → List Frame → List Lexeme → Option Json
  | .complete v, [], [] => some v
  | _, _, [] => none
  | stage, frames, l :: rest =>
    match step? stage frames l with
    | some (stage, frames) => run? stage frames rest
    | none => none

def read? (text : List Char) : Option Json := (lexemes? text).bind (run? .value [])

theorem run?_nil {stage : Stage} {frames : List Frame} {v : Json} :
    run? stage frames [] = some v ↔ stage = .complete v ∧ frames = [] := by
  cases stage <;> cases frames <;> simp [run?]

theorem read?_eq_some_iff {text : List Char} {v : Json} :
    read? text = some v ↔ ∃ ls, lexemes? text = some ls ∧ run? .value [] ls = some v :=
  Option.bind_eq_some_iff

/-! ## Writing -/

def hex2 (n : Nat) : List Char :=
  let digits := Nat.toDigits 16 n
  List.replicate (2 - digits.length) '0' ++ digits

def escapeChar (c : Char) : List Char :=
  match c with
  | '"' => ['\\', '"']
  | '\\' => ['\\', '\\']
  | '\x08' => ['\\', 'b']
  | '\x0c' => ['\\', 'f']
  | '\n' => ['\\', 'n']
  | '\r' => ['\\', 'r']
  | '\t' => ['\\', 't']
  | c => if c.toNat < 0x20 then ['\\', 'u', '0', '0'] ++ hex2 c.toNat else [c]

def writeString (text : String) : String :=
  String.ofList ('"' :: (text.toList.flatMap escapeChar ++ ['"']))

def scalarText : Json → String
  | .null => "null"
  | .boolean value => if value then "true" else "false"
  | .natural value => toString value
  | .number text => text
  | .string value => writeString value
  | _ => ""

mutual

/-- The document on one line, without blanks. -/
def compact : Json → String
  | .array items => "[" ++ ",".intercalate (compactItems items) ++ "]"
  | .object entries => "\x7b" ++ ",".intercalate (compactEntries entries) ++ "\x7d"
  | v => v.scalarText

def compactItems : List Json → List String
  | [] => []
  | v :: rest => compact v :: compactItems rest

def compactEntries : List (String × Json) → List String
  | [] => []
  | (k, v) :: rest => (writeString k ++ ":" ++ compact v) :: compactEntries rest

end

/-- A new line that starts with `depth` blanks. -/
def lineBreak (depth : Nat) : String := String.ofList ('\n' :: List.replicate depth ' ')

/-- Entries between brackets, each on a line of its own. -/
def block (opening closing : String) (depth : Nat) (entries : List String) : String :=
  if entries.isEmpty then opening ++ closing
  else
    opening ++ lineBreak (depth + 2) ++ ("," ++ lineBreak (depth + 2)).intercalate entries ++
      lineBreak depth ++ closing

mutual

/-- The document with an entry to a line, each level indented by two. -/
def pretty (depth : Nat) : Json → String
  | .array items => block "[" "]" depth (prettyItems (depth + 2) items)
  | .object entries => block "\x7b" "\x7d" depth (prettyEntries (depth + 2) entries)
  | v => v.scalarText

def prettyItems (depth : Nat) : List Json → List String
  | [] => []
  | v :: rest => pretty depth v :: prettyItems depth rest

def prettyEntries (depth : Nat) : List (String × Json) → List String
  | [] => []
  | (k, v) :: rest => (writeString k ++ ": " ++ pretty depth v) :: prettyEntries depth rest

end

end Json

end PathTyping
