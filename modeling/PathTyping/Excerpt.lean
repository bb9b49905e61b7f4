import PathTyping.Diagnostic

/-!
# Excerpts

A diagnostic is shown with the source line that it starts on and with carets under its span.  A tab
is shown as four blanks, in the line and before the carets.  A span that runs on to another line
gets one caret.

1. `lines_append`: a line that ends is followed by the lines of the rest.
-/

namespace PathTyping

namespace Excerpt

/-- The lines of a text, without what ends them. -/
def lines : List Char → List (List Char)
  | [] => []
  | '\n' :: rest => [] :: lines rest
  | '\r' :: '\n' :: rest => [] :: lines rest
  | c :: rest =>
    match lines rest with
    | [] => [[c]]
    | line :: more => (c :: line) :: more

def expandTab (c : Char) : List Char := if c = '\t' then [' ', ' ', ' ', ' '] else [c]

/-- As many blanks as the character takes. -/
def blanks (c : Char) : List Char := if c = '\t' then [' ', ' ', ' ', ' '] else [' ']

def carets (span : Span) : Nat :=
  if span.endLine = span.line then max (span.endColumn - span.column + 1) 1 else 1

/-- The line and the carets below it. -/
def underlined (line : List Char) (span : Span) : List String :=
  [String.ofList ([' ', ' ', ' ', ' '] ++ line.flatMap expandTab),
    String.ofList ([' ', ' ', ' ', ' '] ++ (line.take (span.column - 1)).flatMap blanks ++
      List.replicate (carets span) '^')]

end Excerpt

/-- A diagnostic as lines of output, with an excerpt of the text that it is about. -/
def Diagnostic.excerpt (path : String) (text : List Char) (d : Diagnostic) : List String :=
  match d.span with
  | none => [path ++ ": " ++ d.level.text ++ ": " ++ d.message]
  | some span =>
    (path ++ ":" ++ span.text ++ ": " ++ d.level.text ++ ": " ++ d.message) ::
      match (Excerpt.lines text)[span.line - 1]? with
      | some line => Excerpt.underlined line span
      | none => []

theorem Excerpt.lines_append (line rest : List Char) (h : ∀ c ∈ line, c ≠ '\n' ∧ c ≠ '\r') :
    lines (line ++ '\n' :: rest) = line :: lines rest := by
  induction line with
  | nil => rfl
  | cons c line ih =>
    have hc := h c List.mem_cons_self
    have hl := ih fun d hd => h d (List.mem_cons_of_mem _ hd)
    rw [List.cons_append, lines.eq_4]
    · simp [hl]
    · exact hc.1
    · intro _ e
      exact absurd e hc.2

end PathTyping
