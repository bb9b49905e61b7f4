import PathTyping.Span

/-!
# Diagnostics and reports

A report keeps diagnostics in the order in which they were first given.  Two diagnostics of one
kind, span and message are the same diagnostic, whatever their levels, and are kept once.

1. `add_of_has`: adding a diagnostic that is there changes nothing.
2. `entries_add`: any other diagnostic goes to the end.
-/

namespace PathTyping

inductive Level
  | error
  | warning
  | note
  deriving DecidableEq, Inhabited

def Level.text : Level → String
  | .error => "error"
  | .warning => "warning"
  | .note => "note"

/-- The categories of what the analysis of bodies finds. -/
inductive Kind
  | unresolvedIdentifier
  | unresolvedMember
  | invalidOperandShape
  | noMatchingOverload
  | loopCutoff
  | recursionCutoff
  | lowering
  deriving DecidableEq, Inhabited

/-- What is found while reading a text or filing its declarations carries no kind. -/
structure Diagnostic where
  kind : Option Kind
  level : Level
  message : String
  span : Option Span
  deriving DecidableEq, Inhabited

namespace Diagnostic

def error (message : String) (span : Option Span) : Diagnostic := ⟨none, .error, message, span⟩

def warning (message : String) (span : Option Span) : Diagnostic :=
  ⟨none, .warning, message, span⟩

/-- The level takes no part in whether two diagnostics are the same. -/
def same (a b : Diagnostic) : Bool :=
  a.kind == b.kind && a.span == b.span && a.message == b.message

theorem same_iff {a b : Diagnostic} :
    a.same b = true ↔ a.kind = b.kind ∧ a.span = b.span ∧ a.message = b.message := by
  simp [same, and_assoc]

end Diagnostic

structure Report where
  entries : List Diagnostic
  deriving DecidableEq, Inhabited

namespace Report

def empty : Report := ⟨[]⟩

def has (r : Report) (d : Diagnostic) : Bool := r.entries.any (·.same d)

def add (r : Report) (d : Diagnostic) : Report :=
  if r.has d then r else ⟨r.entries ++ [d]⟩

/-- Adds the entries of `other`, in their order, behind those of `r`. -/
def merge (r other : Report) : Report := other.entries.foldl add r

def isEmpty (r : Report) : Bool := r.entries.isEmpty

def hasErrors (r : Report) : Bool := r.entries.any (·.level == .error)

def count (r : Report) (kind : Kind) : Nat := r.entries.countP (·.kind == some kind)

@[simp] theorem entries_empty : empty.entries = [] := rfl

theorem add_of_has {r : Report} {d : Diagnostic} (h : r.has d = true) : r.add d = r := by
  rw [add, if_pos h]

theorem entries_add {r : Report} {d : Diagnostic} (h : r.has d = false) :
    (r.add d).entries = r.entries ++ [d] := by
  rw [add, if_neg (by simp [h])]

@[simp] theorem merge_empty (r : Report) : r.merge empty = r := rfl

end Report

end PathTyping
