import PathTyping.Diagnostic
import PathTyping.Code
import PathTyping.Ty

/-!
# Findings

What the analysis of a body finds on a path.  A finding never stops the analysis: where a value is
missing, one of type `any` stands in.  Two findings, the cutoffs, only say where the analysis left
something out and are notes; all others are errors.

1. `level_eq_note_iff`: which findings are notes.
-/

namespace PathTyping

inductive Finding
  | unresolvedIdentifier (name : String)
  | unresolvedMember (type : Ty) (name : String)
  /-- A slot is read that no instruction of the path has written. -/
  | missingOperand (slot : Slot)
  | notIndexable (target key : Ty)
  | notCallable (type : Ty)
  | noMatchingOverload (name : String) (arguments : List Ty)
  /-- A path comes back to an instruction in the body of `method`. -/
  | loopCutoff (method : String)
  /-- A call is not followed into the body of `method`. -/
  | recursionCutoff (method : String)
  deriving DecidableEq, Inhabited

namespace Finding

def kind : Finding → Kind
  | unresolvedIdentifier _ => .unresolvedIdentifier
  | unresolvedMember _ _ => .unresolvedMember
  | missingOperand _ => .invalidOperandShape
  | notIndexable _ _ => .invalidOperandShape
  | notCallable _ => .invalidOperandShape
  | noMatchingOverload _ _ => .noMatchingOverload
  | loopCutoff _ => .loopCutoff
  | recursionCutoff _ => .recursionCutoff

def level : Finding → Level
  | loopCutoff _ => .note
  | recursionCutoff _ => .note
  | _ => .error

def message : Finding → String
  | unresolvedIdentifier name => "unresolved identifier '" ++ name ++ "'"
  | unresolvedMember type name => "type '" ++ type.describe ++ "' has no member '" ++ name ++ "'"
  | missingOperand slot => "operand " ++ Instr.slotText slot ++ " has no value on this path"
  | notIndexable target key =>
    "cannot index a value of type " ++ target.describe ++ " with " ++ key.describe
  | notCallable type => "value of type " ++ type.describe ++ " is not callable"
  | noMatchingOverload name arguments =>
    "no overload of '" ++ name ++ "' accepts arguments (" ++
      ", ".intercalate (arguments.map Ty.describe) ++ ")"
  | loopCutoff method => "loop in '" ++ method ++ "' analyzed for one iteration"
  | recursionCutoff method => "recursive call to '" ++ method ++ "' not expanded"

/-- The finding as a report shows it, at the instruction with that span. -/
def diagnostic (f : Finding) (span : Span) : Diagnostic :=
  ⟨some f.kind, f.level, f.message, span.present?⟩

theorem level_eq_note_iff (f : Finding) :
    f.level = .note ↔ (∃ m, f = loopCutoff m) ∨ ∃ m, f = recursionCutoff m := by
  cases f <;> simp [level]

end Finding

end PathTyping
