/-!
# Spans of source text

A span runs from the line and column of its first character to those of its last, both counted
from 1 and both inclusive.  Line 0 marks a span that is absent; `Span.cover` passes over it.

1. `cover_absent`, `absent_cover`: an absent span adds nothing.
2. `cover_self`: a span covers itself.
-/

namespace PathTyping

structure Span where
  line : Nat
  column : Nat
  endLine : Nat
  endColumn : Nat
  deriving DecidableEq, Inhabited

namespace Span

/-- The span of code that stands nowhere in a source text. -/
def absent : Span := ⟨0, 0, 0, 0⟩

def point (line column : Nat) : Span := ⟨line, column, line, column⟩

def isAbsent (s : Span) : Bool := s.line == 0

/-- The span itself where it is present. -/
def present? (s : Span) : Option Span := if s.isAbsent then none else some s

def startsBefore (a b : Span) : Bool :=
  a.line < b.line || (a.line == b.line && a.column ≤ b.column)

def endsAfter (a b : Span) : Bool :=
  b.endLine < a.endLine || (a.endLine == b.endLine && b.endColumn ≤ a.endColumn)

/-- The smallest span that covers both. -/
def cover (a b : Span) : Span :=
  if a.isAbsent then b
  else if b.isAbsent then a
  else
    let first := if a.startsBefore b then a else b
    let last := if a.endsAfter b then a else b
    ⟨first.line, first.column, last.endLine, last.endColumn⟩

def contains (s : Span) (line column : Nat) : Bool :=
  (s.line < line || (line == s.line && s.column ≤ column)) &&
    (line < s.endLine || (line == s.endLine && column ≤ s.endColumn))

/-- Spans are ordered by start, then by end. -/
def compare (a b : Span) : Ordering :=
  (Ord.compare a.line b.line).then <|
    (Ord.compare a.column b.column).then <|
      (Ord.compare a.endLine b.endLine).then (Ord.compare a.endColumn b.endColumn)

/-- Where the span starts, as messages name it. -/
def text (s : Span) : String := toString s.line ++ ":" ++ toString s.column

@[simp] theorem isAbsent_absent : absent.isAbsent = true := rfl

@[simp] theorem absent_cover (s : Span) : absent.cover s = s := rfl

theorem cover_absent (s : Span) (h : s.isAbsent = false) : s.cover absent = s := by
  simp [cover, h]

@[simp] theorem cover_self (s : Span) : s.cover s = s := by
  simp [cover]

end Span

/-- A line and a column, both counted from 1. -/
structure Place where
  line : Nat
  column : Nat
  deriving DecidableEq, Inhabited

namespace Place

/-- Where a text starts. -/
def start : Place := ⟨1, 1⟩

/-- The place behind the character `c` that stands at `p`. -/
def next (p : Place) (c : Char) : Place :=
  if c = '\n' then ⟨p.line + 1, 1⟩ else ⟨p.line, p.column + 1⟩

/-- The place behind the text `cs` that starts at `p`. -/
def after (p : Place) (cs : List Char) : Place := cs.foldl next p

@[simp] theorem after_nil (p : Place) : p.after [] = p := rfl

@[simp] theorem after_cons (p : Place) (c : Char) (cs : List Char) :
    p.after (c :: cs) = (p.next c).after cs := rfl

theorem after_append (p : Place) (as bs : List Char) :
    p.after (as ++ bs) = (p.after as).after bs := List.foldl_append

/-- The place as messages spell it. -/
def text (p : Place) : String :=
  "line " ++ toString p.line ++ ", column " ++ toString p.column

end Place

end PathTyping
