import PathTyping.Tree

/-!
# Code

A body is flattened into a list of instructions.  Each result goes into a slot of its own; jumps
name the index of an instruction.  Beside the instructions, code keeps the span that each came from
and the slot that holds the value of each expression.

1. `slotFor?_append`: of two records of one span the later one counts.
-/

namespace PathTyping

abbrev Slot := Nat

inductive Instr
  | const (result : Slot) (literal : Literal)
  | unary (result : Slot) (op : UnaryOp) (operand : Slot)
  | binary (result : Slot) (left : Slot) (op : BinaryOp) (right : Slot)
  | goto (target : Nat)
  /-- Jumps where the truth of `condition` is `expected`. -/
  | gotoIf (target : Nat) (condition : Slot) (expected : Bool)
  | call (result : Slot) (callee : Slot) (arguments : List Slot)
  | load (result : Slot) (name : String)
  | member (result : Slot) (target : Slot) (name : String)
  | index (result : Slot) (target : Slot) (key : Slot)
  /-- Binds a local variable. -/
  | store (name : String) (value : Slot)
  /-- Without a slot, returns what was computed last. -/
  | ret (value : Option Slot)
  deriving Inhabited

namespace Instr

/-- The slot that the instruction writes. -/
def result? : Instr → Option Slot
  | const r _ => some r
  | unary r _ _ => some r
  | binary r _ _ _ => some r
  | call r _ _ => some r
  | load r _ => some r
  | member r _ _ => some r
  | index r _ _ => some r
  | goto _ => none
  | gotoIf _ _ _ => none
  | store _ _ => none
  | ret _ => none

def target? : Instr → Option Nat
  | goto t => some t
  | gotoIf t _ _ => some t
  | _ => none

def isReturn : Instr → Bool
  | ret _ => true
  | _ => false

def slotText (s : Slot) : String := "%" ++ toString s

/-- An index with at least four digits. -/
def indexText (n : Nat) : String :=
  let digits := Nat.toDigits 10 n
  String.ofList (List.replicate (4 - digits.length) '0' ++ digits)

/-- The instruction as a listing shows it. -/
def text : Instr → String
  | const r l => slotText r ++ " = CONST " ++ l.text
  | unary r op x => slotText r ++ " = UNARY " ++ op.text ++ slotText x
  | binary r x op y => slotText r ++ " = BINARY " ++ slotText x ++ " " ++ op.text ++ " " ++ slotText y
  | goto t => "GOTO " ++ indexText t
  | gotoIf t c e =>
    "GOTO_IF " ++ slotText c ++ " == " ++ (if e then "true" else "false") ++ " -> " ++ indexText t
  | call r f args =>
    slotText r ++ " = CALL " ++ slotText f ++ "(" ++ ", ".intercalate (args.map slotText) ++ ")"
  | load r n => slotText r ++ " = LOAD " ++ n
  | member r t n => slotText r ++ " = MEMBER " ++ slotText t ++ "." ++ n
  | index r t k => slotText r ++ " = INDEX " ++ slotText t ++ "[" ++ slotText k ++ "]"
  | store n v => "STORE " ++ n ++ " = " ++ slotText v
  | ret (some v) => "RETURN " ++ slotText v
  | ret none => "RETURN"

end Instr

/-- An instruction and the span that it came from. -/
structure Step where
  instr : Instr
  span : Span
  deriving Inhabited

structure Code where
  steps : List Step
  /-- Expressions by span with the slots of their values, in the order in which they were met. -/
  records : List (Span × Slot)
  deriving Inhabited

namespace Code

def empty : Code := ⟨[], []⟩

/-- Code of bare instructions, which come from nowhere. -/
def ofInstrs (instrs : List Instr) : Code := ⟨instrs.map (⟨·, Span.absent⟩), []⟩

def size (c : Code) : Nat := c.steps.length

def listing (c : Code) : List String :=
  c.steps.zipIdx.map fun (step, i) => Instr.indexText i ++ " " ++ step.instr.text

/-- The slot of the expression that stands at `span`, the one met last. -/
def slotFor? (c : Code) (span : Span) : Option Slot :=
  (c.records.reverse.find? (·.1 = span)).map (·.2)

theorem slotFor?_append (steps : List Step) (records : List (Span × Slot)) (span : Span)
    (slot : Slot) : slotFor? ⟨steps, records ++ [(span, slot)]⟩ span = some slot := by
  simp [slotFor?]

end Code

end PathTyping
