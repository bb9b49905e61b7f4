import PathTyping.Code

/-!
# From bodies to code

Expressions are flattened from left to right, the operands before the operator.  The code of a
statement is built for the index at which it will stand, so each jump is written with its target:
a conditional jumps over its block, and over its other block from the end of the first; a loop
jumps back from the end of its block to its condition.  A body whose end can be reached is followed
by code that returns nil.

1. `lower_assign_member`: only names can be assigned to.
2. `lowerBlock_append`: the code of a block is that of its parts, one behind the other.
-/

namespace PathTyping

/-- Why a body has no code. -/
inductive LowerError
  /-- An assignment to the member or index at `span`. -/
  | unsupportedTarget (span : Span)
  deriving DecidableEq, Inhabited

namespace LowerError

def span : LowerError → Span
  | unsupportedTarget s => s

def message : LowerError → String
  | unsupportedTarget s =>
    "assignment to this kind of target is not supported (" ++ (Place.mk s.line s.column).text ++ ")"

end LowerError

/-! ## Expressions -/

/-- Code and the number of slots in use behind it. -/
structure Fragment where
  steps : List Step
  records : List (Span × Slot)
  used : Nat

namespace Fragment

/-- No code yet, with `used` slots taken. -/
def start (used : Nat) : Fragment := ⟨[], [], used⟩

def append (a b : Fragment) : Fragment := ⟨a.steps ++ b.steps, a.records ++ b.records, b.used⟩

def size (f : Fragment) : Nat := f.steps.length

/-- Adds an instruction that has no result. -/
def emit (f : Fragment) (instr : Instr) (span : Span) : Fragment :=
  { f with steps := f.steps ++ [⟨instr, span⟩] }

/-- Adds an instruction whose result goes into the next slot. -/
def emitResult (f : Fragment) (instr : Slot → Instr) (span : Span) : Fragment :=
  ⟨f.steps ++ [⟨instr (f.used + 1), span⟩], f.records, f.used + 1⟩

def record (f : Fragment) (span : Span) (slot : Slot) : Fragment :=
  { f with records := f.records ++ [(span, slot)] }

@[simp] theorem size_start (used : Nat) : (start used).size = 0 := rfl

@[simp] theorem used_start (used : Nat) : (start used).used = used := rfl

@[simp] theorem start_append (used : Nat) (f : Fragment) : (start used).append f = f := rfl

@[simp] theorem append_start (f : Fragment) : f.append (start f.used) = f := by
  simp [append, start]

@[simp] theorem size_emit (f : Fragment) (instr : Instr) (span : Span) :
    (f.emit instr span).size = f.size + 1 := List.length_append

@[simp] theorem size_emitResult (f : Fragment) (instr : Slot → Instr) (span : Span) :
    (f.emitResult instr span).size = f.size + 1 := List.length_append

@[simp] theorem size_record (f : Fragment) (span : Span) (slot : Slot) :
    (f.record span slot).size = f.size := rfl

@[simp] theorem size_append (a b : Fragment) : (a.append b).size = a.size + b.size :=
  List.length_append

@[simp] theorem used_append (a b : Fragment) : (a.append b).used = b.used := rfl

theorem append_assoc (a b c : Fragment) : (a.append b).append c = a.append (b.append c) := by
  simp [append]

end Fragment

/-- Code that leaves the value of an expression in a slot. -/
structure ExprCode where
  code : Fragment
  value : Slot

namespace ExprCode

/-- Computes the value of the expression at `span` into the next slot behind `f`. -/
def compute (f : Fragment) (instr : Slot → Instr) (span : Span) : ExprCode :=
  ⟨(f.emitResult instr span).record span (f.used + 1), f.used + 1⟩

end ExprCode

namespace Expr

mutual

/-- The code of an expression where `used` slots are taken. -/
def lower (used : Nat) : Expr → Except LowerError ExprCode
  | literal s v => .ok (.compute (.start used) (.const · v) s)
  | name s n => .ok (.compute (.start used) (.load · n) s)
  | self s => .ok (.compute (.start used) (.load · "self") s)
  | unary s op e => do
    let x ← lower used e
    return .compute x.code (.unary · op x.value) s
  | binary s op l r => do
    let x ← lower used l
    let y ← lower x.code.used r
    return .compute (x.code.append y.code) (.binary · x.value op y.value) s
  | assign s t v =>
    match t with
    | name _ n => do
      let x ← lower used v
      return ⟨(x.code.emit (.store n x.value) s).record s x.value, x.value⟩
    | t => throw (.unsupportedTarget t.span)
  | call s f args => do
    let x ← lower used f
    let (code, values) ← lowerList x.code.used args
    return .compute (x.code.append code) (.call · x.value values) s
  | member s o n _ => do
    let x ← lower used o
    return .compute x.code (.member · x.value n) s
  | index s o i => do
    let x ← lower used o
    let y ← lower x.code.used i
    return .compute (x.code.append y.code) (.index · x.value y.value) s
  | group s e => do
    let x ← lower used e
    return ⟨x.code.record s x.value, x.value⟩
termination_by structural e => e

/-- The code of several expressions and the slots of their values. -/
def lowerList (used : Nat) : List Expr → Except LowerError (Fragment × List Slot)
  | [] => .ok (.start used, [])
  | e :: rest => do
    let x ← lower used e
    let (code, values) ← lowerList x.code.used rest
    return (x.code.append code, x.value :: values)
termination_by structural es => es

end

/-- An expression by itself: its code returns its value. -/
def toCode (e : Expr) : Except LowerError Code := do
  let x ← e.lower 0
  let code := x.code.emit (.ret (some x.value)) e.span
  return ⟨code.steps, code.records⟩

theorem lower_assign_name (used : Nat) (s t : Span) (n : String) (v : Expr) :
    lower used (assign s (name t n) v) =
      (lower used v).map fun x =>
        ⟨(x.code.emit (.store n x.value) s).record s x.value, x.value⟩ := by
  rw [lower]
  cases lower used v <;> rfl

theorem lower_assign_member (used : Nat) (s t ns : Span) (o v : Expr) (n : String) :
    lower used (assign s (member t o n ns) v) = .error (.unsupportedTarget t) := by
  rw [lower]
  · rfl
  · exact nofun

end Expr

/-! ## Statements -/

namespace Stmt

/-- The slot-free end of `f`: nil is put into a slot and returned. -/
def returnNil (f : Fragment) (span : Span) : Fragment :=
  (f.emitResult (.const · .nil) span).emit (.ret (some (f.used + 1))) span

mutual

/-- The code of a statement that stands at index `base` where `used` slots are taken. -/
def lower (base used : Nat) : Stmt → Except LowerError Fragment
  | var s n e => do
    let x ← e.lower used
    return x.code.emit (.store n x.value) s
  | cond s c a b => do
    let x ← c.lower used
    let inner := base + x.code.size + 1
    let y ← lowerBlock inner x.code.used a
    match b with
    | none =>
      return (x.code.emit (.gotoIf (inner + y.size) x.value false) c.span).append y
    | some b => do
      let other := inner + y.size + 1
      let z ← lowerBlock other y.used b
      let y := y.emit (.goto (other + z.size)) s
      return ((x.code.emit (.gotoIf other x.value false) c.span).append y).append z
  | loop s c b => do
    let x ← c.lower used
    let inner := base + x.code.size + 1
    let y ← lowerBlock inner x.code.used b
    let behind := inner + y.size + 1
    return ((x.code.emit (.gotoIf behind x.value false) c.span).append y).emit (.goto base) s
  | ret s (some e) => do
    let x ← e.lower used
    return x.code.emit (.ret (some x.value)) s
  | ret s none => .ok (returnNil (.start used) s)
  | expr e => do
    let x ← e.lower used
    return x.code
termination_by structural s => s

def lowerBlock (base used : Nat) : List Stmt → Except LowerError Fragment
  | [] => .ok (.start used)
  | s :: rest => do
    let x ← lower base used s
    let y ← lowerBlock (base + x.size) x.used rest
    return x.append y
termination_by structural b => b

end

theorem lowerBlock_append (base used : Nat) (as bs : List Stmt) :
    lowerBlock base used (as ++ bs) = (do
      let x ← lowerBlock base used as
      let y ← lowerBlock (base + x.size) x.used bs
      return x.append y) := by
  induction as generalizing base used with
  | nil =>
    simp only [List.nil_append, lowerBlock]
    cases h : lowerBlock base used bs <;> simp [bind, Except.bind, pure, Except.pure, h]
  | cons s as ih =>
    simp only [List.cons_append, lowerBlock, ih]
    cases lower base used s with
    | error e => rfl
    | ok x =>
      simp only [bind, Except.bind, pure, Except.pure]
      cases lowerBlock (base + x.size) x.used as with
      | error e => rfl
      | ok y =>
        simp only [Fragment.size_append, Fragment.used_append, Nat.add_assoc]
        cases lowerBlock (base + (x.size + y.size)) y.used bs with
        | error e => rfl
        | ok z => exact congrArg Except.ok (Fragment.append_assoc x y z).symm

end Stmt

/-- The code needs no return at its end: it ends in one, and no jump leads past it. -/
def Fragment.isClosed (f : Fragment) : Bool :=
  (f.steps.getLast?.any (·.instr.isReturn)) &&
    !(f.steps.any fun step => step.instr.target? == some f.size)

/-- The code of a function's body. -/
def FunctionDecl.toCode (f : FunctionDecl) : Except LowerError Code := do
  let body ← Stmt.lowerBlock 0 0 f.body
  let code := if body.isClosed then body else Stmt.returnNil body f.span
  return ⟨code.steps, code.records⟩

end PathTyping
