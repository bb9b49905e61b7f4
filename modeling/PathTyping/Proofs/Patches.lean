import Mathlib.Algebra.Group.Nat.Defs
import PathTyping.Code.Lower

/-!
# Jumps that are filled in later

Code can be written from its first instruction to its last, without a count of what is still to
come: a jump forward is written before it is known where it leads, and filled in when the
instructions that it passes over have been written.  What is filled in has to be a jump, so this
could fail where lowering could not.

1. `Expr.draft`, `Stmt.draft`: writing in this manner.  What is written stays as it is, but for the
   jumps that are filled in.
2. `Drafting.run_patch`: a jump is found where it was written, whatever was written behind it.
3. `FunctionDecl.draft_eq`: what is written is the code that lowering gives, and the fault is the
   one that lowering finds.  No jump is ever missing.
-/

namespace PathTyping

/-- Why no code is written. -/
inductive DraftError
  | refused (e : LowerError)
  /-- What stands at `index` is no jump, or nothing. -/
  | noJump (index : Nat)
  deriving DecidableEq, Inhabited

/-- The same jump to another place, if it is a jump. -/
def Instr.redirect? (target : Nat) : Instr → Option Instr
  | goto _ => some (goto target)
  | gotoIf _ condition expected => some (gotoIf target condition expected)
  | _ => none

/-- Writing code behind what has been written. -/
abbrev Drafting := StateT Fragment (Except DraftError)

namespace Drafting

def nextSlot : Drafting Slot :=
  modifyGet fun f => (f.used + 1, { f with used := f.used + 1 })

/-- Writes an instruction, and gives the index at which it stands. -/
def emit (instr : Instr) (span : Span) : Drafting Nat :=
  modifyGet fun f => (f.size, f.emit instr span)

/-- Writes an instruction whose result goes into the next slot. -/
def compute (instr : Slot → Instr) (span : Span) : Drafting Slot := do
  let result ← nextSlot
  let _ ← emit (instr result) span
  return result

/-- Keeps the slot of the expression at `span`. -/
def recorded (span : Span) (x : Drafting Slot) : Drafting Slot := do
  let slot ← x
  modify (·.record span slot)
  return slot

/-- Where a jump leads until it is filled in. -/
def nowhere : Nat := 2 ^ 64 - 1

/-- Lets the jump at `index` lead behind all that has been written. -/
def patch (index : Nat) : Drafting Unit := do
  let f ← get
  match f.steps[index]? with
  | none => throw (.noJump index)
  | some step =>
    match step.instr.redirect? f.size with
    | none => throw (.noJump index)
    | some jump => set { f with steps := f.steps.set index ⟨jump, step.span⟩ }

end Drafting

open Drafting

/-! ## Expressions -/

namespace Expr

mutual

def draft : Expr → Drafting Slot
  | literal s v => recorded s (compute (.const · v) s)
  | name s n => recorded s (compute (.load · n) s)
  | self s => recorded s (compute (.load · "self") s)
  | unary s op e => recorded s do
    let x ← draft e
    compute (.unary · op x) s
  | binary s op l r => recorded s do
    let x ← draft l
    let y ← draft r
    compute (.binary · x op y) s
  | assign s t v => recorded s <|
    match t with
    | name _ n => do
      let x ← draft v
      let _ ← emit (.store n x) s
      return x
    | t => throw (.refused (.unsupportedTarget t.span))
  | call s f args => recorded s do
    let x ← draft f
    let values ← draftList args
    compute (.call · x values) s
  | member s o n _ => recorded s do
    let x ← draft o
    compute (.member · x n) s
  | index s o i => recorded s do
    let x ← draft o
    let y ← draft i
    compute (.index · x y) s
  | group s e => recorded s (draft e)
termination_by structural e => e

def draftList : List Expr → Drafting (List Slot)
  | [] => return []
  | e :: rest => do
    let x ← draft e
    let values ← draftList rest
    return x :: values
termination_by structural es => es

end

end Expr

/-! ## Statements -/

namespace Stmt

/-- Nil is put into a slot and returned. -/
def draftReturnNil (span : Span) : Drafting Unit := do
  let result ← compute (.const · .nil) span
  let _ ← emit (.ret (some result)) span

mutual

def draft : Stmt → Drafting Unit
  | var s n e => do
    let x ← e.draft
    let _ ← emit (.store n x) s
  | cond s c a b => do
    let x ← c.draft
    let past ← emit (.gotoIf nowhere x false) c.span
    draftBlock a
    match b with
    | none => patch past
    | some b => do
      let across ← emit (.goto nowhere) s
      patch past
      draftBlock b
      patch across
  | loop s c b => do
    let start := (← get).size
    let x ← c.draft
    let past ← emit (.gotoIf nowhere x false) c.span
    draftBlock b
    let _ ← emit (.goto start) s
    patch past
  | ret s (some e) => do
    let x ← e.draft
    let _ ← emit (.ret (some x)) s
  | ret s none => draftReturnNil s
  | expr e => do
    let _ ← e.draft
termination_by structural s => s

def draftBlock : List Stmt → Drafting Unit
  | [] => return
  | s :: rest => do
    draft s
    draftBlock rest
termination_by structural b => b

end

end Stmt

/-- Writes a return where the end of what has been written can be reached. -/
def Drafting.close (span : Span) : Drafting Unit := do
  let f ← get
  if f.isClosed then return else Stmt.draftReturnNil span

/-- The code of a function's body, written from its first instruction to its last. -/
def FunctionDecl.draft (f : FunctionDecl) : Except DraftError Code := do
  let ((), written) ← (do Stmt.draftBlock f.body; close f.span : Drafting Unit).run (.start 0)
  return ⟨written.steps, written.records⟩

/-! ## What is written -/

namespace Fragment

theorem append_emit (f g : Fragment) (instr : Instr) (span : Span) :
    f.append (g.emit instr span) = (f.append g).emit instr span := by simp [append, emit]

theorem append_emitResult (f g : Fragment) (instr : Slot → Instr) (span : Span) :
    f.append (g.emitResult instr span) = (f.append g).emitResult instr span := by
  simp [append, emitResult]

theorem append_record (f g : Fragment) (span : Span) (slot : Slot) :
    f.append (g.record span slot) = (f.append g).record span slot := by simp [append, record]

end Fragment

/-- What `code` picks is written behind `f`, and `value` is given. -/
def Fragment.behind {α γ : Type} (f : Fragment) (code : γ → Fragment) (value : γ → α) :
    Except LowerError γ → Except DraftError (α × Fragment)
  | .error e => .error (.refused e)
  | .ok x => .ok (value x, f.append (code x))

/-- What is written behind `g` is written behind what `g` was written behind. -/
theorem Fragment.behind_append {α : Type} (f g : Fragment) (value : Fragment → α)
    (made : Except LowerError Fragment) :
    f.behind id value (made >>= fun h => pure (g.append h)) =
      (f.append g).behind id (fun h => value (g.append h)) made := by
  cases made with
  | error e => rfl
  | ok h => exact congrArg (fun k => Except.ok (_, k)) (append_assoc f g h).symm

namespace Drafting

section Run

variable {α β γ δ : Type} {f g : Fragment} {x : Drafting α} {k : α → Drafting β}

theorem run_bind_ok {v : α} (h : x.run f = .ok (v, g)) : (x >>= k).run f = (k v).run g := by
  rw [StateT.run_bind, h]
  rfl

/-- Where `x` writes what is made, and what follows writes what is made next, both are written or
the first fault counts. -/
theorem run_bind_behind {code : γ → Fragment} {value : γ → α} {code' : δ → Fragment}
    {value' : δ → β} {made : Except LowerError γ} {next : γ → Except LowerError δ}
    (h : x.run g = g.behind code value made)
    (h' : ∀ y, (k (value y)).run (g.append (code y)) = f.behind code' value' (next y)) :
    (x >>= k).run g = f.behind code' value' (made >>= next) := by
  cases made with
  | error e =>
    rw [StateT.run_bind, h]
    rfl
  | ok y =>
    rw [run_bind_ok h]
    exact h' y

theorem recorded_bind (span : Span) (x : Drafting α) (k : α → Drafting Slot) :
    recorded span (x >>= k) = x >>= fun v => recorded span (k v) := by
  simp only [recorded, bind_assoc]

theorem run_recorded_compute (f g : Fragment) (instr : Slot → Instr) (span : Span) :
    (recorded span (compute instr span)).run (f.append g) =
      f.behind ExprCode.code ExprCode.value (.ok (.compute g instr span)) := by
  rw [Fragment.behind, ExprCode.compute, Fragment.append_record, Fragment.append_emitResult]
  rfl

/-- What is filled in is found where it was written, whatever was written behind it. -/
theorem run_patch {instr jump : Instr} {span : Span} {index : Nat} (stands : index = f.size)
    (jumps : instr.redirect? ((f.emit instr span).append g).size = some jump) :
    (patch index).run ((f.emit instr span).append g) = .ok ((), (f.emit jump span).append g) := by
  subst stands
  have here : ((f.emit instr span).append g).steps[f.size]? = some ⟨instr, span⟩ := by
    simp [Fragment.append, Fragment.emit, Fragment.size]
  rw [patch, run_bind_ok rfl]
  simp only [here, jumps]
  show Except.ok _ = Except.ok _
  simp [Fragment.append, Fragment.emit, Fragment.size]

end Run

end Drafting

namespace Expr

mutual

/-- Behind what has been written, the code of an expression is written, or it is refused as
lowering refuses it. -/
theorem run_draft (f : Fragment) : ∀ e : Expr,
    e.draft.run f = f.behind ExprCode.code ExprCode.value (e.lower f.used)
  | literal s v => rfl
  | name s n => rfl
  | self s => rfl
  | unary s op e => by
    rw [draft, lower, recorded_bind]
    exact run_bind_behind (run_draft f e) fun x => run_recorded_compute f _ _ s
  | binary s op l r => by
    rw [draft, lower, recorded_bind]
    refine run_bind_behind (run_draft f l) fun x => ?_
    rw [recorded_bind]
    refine run_bind_behind (run_draft (f.append x.code) r) fun y => ?_
    rw [Fragment.append_assoc]
    exact run_recorded_compute f _ _ s
  | call s e args => by
    rw [draft, lower, recorded_bind]
    refine run_bind_behind (run_draft f e) fun x => ?_
    rw [recorded_bind]
    refine run_bind_behind (run_draftList (f.append x.code) args) fun y => ?_
    rw [Fragment.append_assoc]
    exact run_recorded_compute f _ _ s
  | assign s t v => by
    cases t with
    | name r n =>
      rw [draft, lower, recorded_bind]
      refine run_bind_behind (run_draft f v) fun x => ?_
      rw [recorded_bind, run_bind_ok rfl]
      show Except.ok _ = Except.ok (_, f.append _)
      rw [Fragment.append_record, Fragment.append_emit]
    | _ => rfl
  | member s o n ns => by
    rw [draft, lower, recorded_bind]
    exact run_bind_behind (run_draft f o) fun x => run_recorded_compute f _ _ s
  | index s o i => by
    rw [draft, lower, recorded_bind]
    refine run_bind_behind (run_draft f o) fun x => ?_
    rw [recorded_bind]
    refine run_bind_behind (run_draft (f.append x.code) i) fun y => ?_
    rw [Fragment.append_assoc]
    exact run_recorded_compute f _ _ s
  | group s e => by
    rw [draft, lower]
    refine run_bind_behind (run_draft f e) fun x => ?_
    show Except.ok _ = Except.ok (_, f.append _)
    rw [Fragment.append_record]

theorem run_draftList (f : Fragment) : ∀ es : List Expr,
    (draftList es).run f = f.behind Prod.fst Prod.snd (lowerList f.used es)
  | [] => by
    rw [draftList, lowerList, Fragment.behind, Fragment.append_start]
    rfl
  | e :: rest => by
    rw [draftList, lowerList]
    refine run_bind_behind (run_draft f e) fun x => ?_
    refine run_bind_behind (run_draftList (f.append x.code) rest) fun y => ?_
    rw [Fragment.append_assoc]
    rfl

end

end Expr

namespace Stmt

/-- What a statement writes, and nothing else. -/
theorem run_draftReturnNil (f g : Fragment) (span : Span) :
    (draftReturnNil span).run (f.append g) = .ok ((), f.append (returnNil g span)) := by
  rw [returnNil, Fragment.append_emit, Fragment.append_emitResult]
  rfl

mutual

/-- A statement is written for the index at which it stands. -/
theorem run_draft (f : Fragment) : ∀ s : Stmt,
    s.draft.run f = f.behind id (fun _ => ()) (s.lower f.size f.used)
  | var s n e => by
    rw [draft, lower]
    refine run_bind_behind (e.run_draft f) fun x => ?_
    show Except.ok _ = Except.ok (_, f.append (x.code.emit _ _))
    rw [Fragment.append_emit]
  | cond s c a none => by
    rw [draft, lower]
    refine run_bind_behind (c.run_draft f) fun x => ?_
    rw [run_bind_ok rfl]
    have inner := run_draftBlock ((f.append x.code).emit (.gotoIf nowhere x.value false) c.span) a
    rw [Fragment.size_emit, Fragment.size_append] at inner
    refine run_bind_behind inner fun y => ?_
    rw [run_patch rfl rfl]
    show Except.ok _ = Except.ok (_, f.append ((x.code.emit _ _).append y))
    simp [← Fragment.append_assoc, Fragment.append_emit, Nat.add_assoc]
  | cond s c a (some b) => by
    rw [draft, lower]
    refine run_bind_behind (c.run_draft f) fun x => ?_
    rw [run_bind_ok rfl]
    have inner := run_draftBlock ((f.append x.code).emit (.gotoIf nowhere x.value false) c.span) a
    rw [Fragment.size_emit, Fragment.size_append] at inner
    refine run_bind_behind inner fun y => ?_
    have size (target : Nat) :
        (((f.append x.code).emit (.gotoIf target x.value false) c.span).append y).size =
          f.size + x.code.size + 1 + y.size := by
      simp
    rw [run_bind_ok rfl, id, ← Fragment.append_emit _ y, run_bind_ok (run_patch rfl rfl)]
    simp only [Fragment.append_emit _ y, Fragment.size_emit, size]
    -- The jump over the other block is written behind the one that leads past it.
    have other := run_draftBlock ((((f.append x.code).emit (.gotoIf
      (f.size + x.code.size + 1 + y.size + 1) x.value false) c.span).append y).emit
        (.goto nowhere) s) b
    rw [Fragment.size_emit, size] at other
    refine run_bind_behind other fun z => ?_
    rw [id, run_patch (size _).symm rfl]
    show Except.ok _ = Except.ok (_, f.append ((((x.code.emit _ _).append y).emit _ _).append z))
    simp [← Fragment.append_assoc, Fragment.append_emit, Nat.add_assoc]
  | loop s c b => by
    rw [draft, lower, run_bind_ok rfl]
    refine run_bind_behind (c.run_draft f) fun x => ?_
    rw [run_bind_ok rfl]
    have inner := run_draftBlock ((f.append x.code).emit (.gotoIf nowhere x.value false) c.span) b
    rw [Fragment.size_emit, Fragment.size_append] at inner
    refine run_bind_behind inner fun y => ?_
    rw [run_bind_ok rfl, id, ← Fragment.append_emit _ y, run_patch rfl rfl]
    show Except.ok _ = Except.ok (_, f.append (((x.code.emit _ _).append y).emit _ _))
    simp [← Fragment.append_assoc, Fragment.append_emit, Nat.add_assoc]
  | ret s (some e) => by
    rw [draft, lower]
    refine run_bind_behind (e.run_draft f) fun x => ?_
    show Except.ok _ = Except.ok (_, f.append (x.code.emit _ _))
    rw [Fragment.append_emit]
  | ret s none => by
    have written := run_draftReturnNil f (.start f.used) s
    rwa [Fragment.append_start] at written
  | expr e => by
    rw [draft, lower]
    exact run_bind_behind (e.run_draft f) fun x => rfl

theorem run_draftBlock (f : Fragment) : ∀ b : List Stmt,
    (draftBlock b).run f = f.behind id (fun _ => ()) (lowerBlock f.size f.used b)
  | [] => by
    rw [draftBlock, lowerBlock, Fragment.behind, id, Fragment.append_start]
    rfl
  | s :: rest => by
    rw [draftBlock, lowerBlock]
    refine run_bind_behind (run_draft f s) fun x => ?_
    rw [Fragment.behind_append, ← Fragment.size_append]
    exact run_draftBlock (f.append x) rest

end

end Stmt

theorem Drafting.run_close (f : Fragment) (span : Span) : (close span).run f =
    .ok ((), if f.isClosed then f else Stmt.returnNil f span) := by
  rw [close, run_bind_ok rfl]
  split <;> rfl

/-- Written from its first instruction to its last, the code of a body is what lowering gives, and
it is refused just where lowering refuses it. -/
theorem FunctionDecl.draft_eq (f : FunctionDecl) : f.draft = f.toCode.mapError .refused := by
  have written : (Stmt.draftBlock f.body).run (.start 0) =
      (Fragment.start 0).behind id (fun _ => ()) (Stmt.lowerBlock 0 0 f.body) :=
    Stmt.run_draftBlock (.start 0) f.body
  unfold draft toCode
  cases made : Stmt.lowerBlock 0 0 f.body with
  | error e =>
    rw [made] at written
    rw [StateT.run_bind, written]
    rfl
  | ok body =>
    rw [made] at written
    rw [run_bind_ok written, run_close]
    rfl

/-- What is filled in always is a jump. -/
theorem FunctionDecl.draft_ne_noJump (f : FunctionDecl) (index : Nat) :
    f.draft ≠ .error (.noJump index) := by
  rw [draft_eq]
  cases f.toCode <;> nofun

end PathTyping
