import PathTyping.Code.Lower

/-!
# Executions of bodies and of code

What a body does, told twice: by its statements and by the instructions of its code.  Both leave
open what the primitive operations mean.  An interpretation answers them over a state of any kind,
and the world in which something is executed keeps that state and the operations performed so far.

A body may loop for ever, so its execution is bounded: a bound of `n` lets each loop go round at
most `n` times.  Code is run for a number of instructions.

1. `run_add`: a run can be stopped anywhere and taken up again.
2. `performed_prefix`: what a run has performed stays performed.
-/

namespace PathTyping

/-- The operations that bodies and code are made of, applied to values of type `ν`. -/
inductive Primitive (ν : Type)
  | const (l : Literal)
  | unary (op : UnaryOp) (x : ν)
  | binary (x : ν) (op : BinaryOp) (y : ν)
  | load (name : String)
  | store (name : String) (x : ν)
  | member (target : ν) (name : String)
  | index (target key : ν)
  | call (callee : ν) (arguments : List ν)
  | truth (x : ν)

/-- What an operation answers: storing nothing, truth a truth value, all others a value. -/
abbrev Primitive.Answer {ν : Type} : Primitive ν → Type
  | .store _ _ => Unit
  | .truth _ => Bool
  | _ => ν

/-- The meaning of the operations over a state of type `σ`. -/
abbrev Interpretation (ν σ : Type) := (p : Primitive ν) → σ → p.Answer × σ

structure World (ν σ : Type) where
  state : σ
  /-- The operations performed so far, the first one in front. -/
  performed : List (Primitive ν)

abbrev Effect (ν σ : Type) := StateM (World ν σ)

variable {ν σ : Type}

def Interpretation.perform (I : Interpretation ν σ) (p : Primitive ν) : Effect ν σ p.Answer :=
  fun w => let (a, s) := I p w.state; (a, ⟨s, w.performed ++ [p]⟩)

/-! ## Bodies -/

namespace Expr

mutual

/-- Evaluates an expression, its operands from left to right.  No code is made for an assignment to
anything but a name; here it stores nothing. -/
def eval (I : Interpretation ν σ) : Expr → Effect ν σ ν
  | literal _ l => I.perform (.const l)
  | name _ n => I.perform (.load n)
  | self _ => I.perform (.load "self")
  | unary _ op e => do
    let x ← eval I e
    I.perform (.unary op x)
  | binary _ op l r => do
    let x ← eval I l
    let y ← eval I r
    I.perform (.binary x op y)
  | assign _ t v => do
    let x ← eval I v
    match t with
    | name _ n => I.perform (.store n x)
    | _ => pure ()
    return x
  | call _ f args => do
    let x ← eval I f
    let xs ← evalList I args
    I.perform (.call x xs)
  | member _ o n _ => do
    let x ← eval I o
    I.perform (.member x n)
  | index _ o i => do
    let x ← eval I o
    let y ← eval I i
    I.perform (.index x y)
  | group _ e => eval I e
termination_by structural e => e

def evalList (I : Interpretation ν σ) : List Expr → Effect ν σ (List ν)
  | [] => return []
  | e :: rest => do
    let x ← eval I e
    let xs ← evalList I rest
    return x :: xs
termination_by structural es => es

end

/-- Evaluates a condition and asks for its truth. -/
def test (I : Interpretation ν σ) (e : Expr) : Effect ν σ Bool := do
  let x ← e.eval I
  I.perform (.truth x)

end Expr

/-- How a statement leaves its block. -/
inductive Flow (ν : Type)
  /-- To the next statement. -/
  | onward
  | returned (v : ν)
  /-- A loop would have to go round more often than the bound allows. -/
  | unfinished

namespace Stmt

/-- Goes round a loop at most `bound` times. -/
def repeatWhile (condition : Effect ν σ Bool) (body : Effect ν σ (Flow ν)) :
    Nat → Effect ν σ (Flow ν)
  | 0 => return .unfinished
  | bound + 1 => do
    if ← condition then
      match ← body with
      | .onward => repeatWhile condition body bound
      | flow => return flow
    else return .onward

mutual

def exec (I : Interpretation ν σ) (bound : Nat) : Stmt → Effect ν σ (Flow ν)
  | var _ n e => do
    let x ← e.eval I
    I.perform (.store n x)
    return .onward
  | cond _ c a b => do
    if ← c.test I then execBlock I bound a
    else
      match b with
      | some b => execBlock I bound b
      | none => return .onward
  | loop _ c b => repeatWhile (c.test I) (execBlock I bound b) bound
  | ret _ (some e) => return .returned (← e.eval I)
  | ret _ none => return .returned (← I.perform (.const .nil))
  | expr e => do
    let _ ← e.eval I
    return .onward
termination_by structural s => s

def execBlock (I : Interpretation ν σ) (bound : Nat) : List Stmt → Effect ν σ (Flow ν)
  | [] => return .onward
  | s :: rest => do
    match ← exec I bound s with
    | .onward => execBlock I bound rest
    | flow => return flow
termination_by structural b => b

end

end Stmt

/-- Executes the body of a function, which returns nil at its end; no value if it is unfinished. -/
def FunctionDecl.exec (f : FunctionDecl) (I : Interpretation ν σ) (bound : Nat) :
    Effect ν σ (Option ν) := do
  match ← Stmt.execBlock I bound f.body with
  | .onward => return some (← I.perform (.const .nil))
  | .returned v => return some v
  | .unfinished => return none

/-! ## Code -/

/-- Where a run of code stands, and what it has computed. -/
structure Frame (ν : Type) where
  index : Nat
  slots : Slot → Option ν
  latest : Option ν

namespace Frame

def start : Frame ν := ⟨0, fun _ => none, none⟩

def goto (c : Frame ν) (index : Nat) : Frame ν := { c with index := index }

def next (c : Frame ν) : Frame ν := c.goto (c.index + 1)

/-- Puts a result into its slot and goes on to the next instruction. -/
def write (c : Frame ν) (slot : Slot) (v : ν) : Frame ν :=
  ⟨c.index + 1, fun s => if s = slot then some v else c.slots s, some v⟩

@[simp] theorem index_goto (c : Frame ν) (i : Nat) : (c.goto i).index = i := rfl

@[simp] theorem slots_goto (c : Frame ν) (i : Nat) : (c.goto i).slots = c.slots := rfl

@[simp] theorem index_next (c : Frame ν) : c.next.index = c.index + 1 := rfl

@[simp] theorem slots_next (c : Frame ν) : c.next.slots = c.slots := rfl

@[simp] theorem index_write (c : Frame ν) (s : Slot) (v : ν) :
    (c.write s v).index = c.index + 1 := rfl

@[simp] theorem slots_write_self (c : Frame ν) (s : Slot) (v : ν) :
    (c.write s v).slots s = some v := if_pos rfl

theorem slots_write_of_ne (c : Frame ν) {s t : Slot} (v : ν) (h : t ≠ s) :
    (c.write s v).slots t = c.slots t := if_neg h

end Frame

/-- What a run of code has come to. -/
inductive Stage (ν : Type)
  | running (c : Frame ν)
  | returned (v : ν)
  /-- The code was left, or a slot was read that nothing had been written to. -/
  | stuck

namespace Stage

/-- Goes on with what was read, if there was something to read. -/
def reading {α : Type} (read : Option α) (go : α → Effect ν σ (Stage ν)) : Effect ν σ (Stage ν) :=
  match read with
  | some a => go a
  | none => return .stuck

/-- Puts a result into a slot. -/
def computing (c : Frame ν) (slot : Slot) (e : Effect ν σ ν) : Effect ν σ (Stage ν) :=
  return .running (c.write slot (← e))

def execute (I : Interpretation ν σ) (c : Frame ν) : Instr → Effect ν σ (Stage ν)
  | .const r l => computing c r (I.perform (.const l))
  | .unary r op x => reading (c.slots x) fun v => computing c r (I.perform (.unary op v))
  | .binary r x op y =>
    reading (c.slots x) fun v =>
      reading (c.slots y) fun w => computing c r (I.perform (.binary v op w))
  | .goto t => return .running (c.goto t)
  | .gotoIf t x expected =>
    reading (c.slots x) fun v => do
      if (← I.perform (.truth v)) = expected then return .running (c.goto t)
      else return .running c.next
  | .call r f args =>
    reading (c.slots f) fun v =>
      reading (args.mapM c.slots) fun vs => computing c r (I.perform (.call v vs))
  | .load r n => computing c r (I.perform (.load n))
  | .member r t n => reading (c.slots t) fun v => computing c r (I.perform (.member v n))
  | .index r t k =>
    reading (c.slots t) fun v =>
      reading (c.slots k) fun w => computing c r (I.perform (.index v w))
  | .store n x =>
    reading (c.slots x) fun v => do
      I.perform (.store n v)
      return .running c.next
  | .ret (some x) => reading (c.slots x) fun v => return .returned v
  | .ret none =>
    match c.latest with
    | some v => return .returned v
    | none => return .returned (← I.perform (.const .nil))

/-- Runs `count` instructions, or fewer if the run ends before. -/
def run (I : Interpretation ν σ) (steps : List Step) : Nat → Stage ν → Effect ν σ (Stage ν)
  | count + 1, running c => do
    let stage ← reading steps[c.index]? fun s => execute I c s.instr
    run I steps count stage
  | _, stage => return stage

variable (I : Interpretation ν σ) (steps : List Step)

@[simp] theorem run_zero (stage : Stage ν) : run I steps 0 stage = pure stage := rfl

@[simp] theorem run_returned (count : Nat) (v : ν) :
    run I steps count (returned v) = pure (returned v) := by cases count <;> rfl

@[simp] theorem run_stuck (count : Nat) :
    run I steps count (stuck : Stage ν) = pure stuck := by cases count <;> rfl

theorem run_succ (count : Nat) (c : Frame ν) :
    run I steps (count + 1) (running c) =
      reading steps[c.index]? (fun s => execute I c s.instr) >>= run I steps count := rfl

theorem run_add (m n : Nat) (stage : Stage ν) :
    run I steps (m + n) stage = run I steps m stage >>= run I steps n := by
  induction m generalizing stage with
  | zero => simp
  | succ m ih =>
    cases stage with
    | running c =>
      rw [Nat.add_right_comm, run_succ, run_succ, bind_assoc]
      exact congrArg _ (funext ih)
    | returned v => simp
    | stuck => simp

end Stage

/-! ## Ends -/

/-- From the state `s` the body returns `v` and leaves the world `w` behind. -/
def FunctionDecl.Ends (f : FunctionDecl) (I : Interpretation ν σ) (s : σ) (v : ν)
    (w : World ν σ) : Prop := ∃ bound, (f.exec I bound).run ⟨s, []⟩ = (some v, w)

/-- What the body performs from the state `s` on within a bound. -/
def FunctionDecl.performed (f : FunctionDecl) (I : Interpretation ν σ) (s : σ) (bound : Nat) :
    List (Primitive ν) := ((f.exec I bound).run ⟨s, []⟩).2.performed

namespace Code

/-- Runs `count` instructions from the first one on. -/
def run (code : Code) (I : Interpretation ν σ) (s : σ) (count : Nat) : Stage ν × World ν σ :=
  (Stage.run I code.steps count (.running .start)).run ⟨s, []⟩

/-- From the state `s` the code returns `v` and leaves the world `w` behind. -/
def Ends (code : Code) (I : Interpretation ν σ) (s : σ) (v : ν) (w : World ν σ) : Prop :=
  ∃ count, code.run I s count = (.returned v, w)

def performed (code : Code) (I : Interpretation ν σ) (s : σ) (count : Nat) :
    List (Primitive ν) := (code.run I s count).2.performed

end Code

/-! ## What has been performed -/

/-- An effect that takes back nothing of what was performed before it. -/
def Keeps {α : Type} (e : Effect ν σ α) : Prop :=
  ∀ w, w.performed <+: (e.run w).2.performed

namespace Keeps

theorem pure {α : Type} (a : α) : Keeps (Pure.pure a : Effect ν σ α) := fun _ => List.prefix_rfl

theorem bind {α β : Type} {e : Effect ν σ α} {f : α → Effect ν σ β} (he : Keeps e)
    (hf : ∀ a, Keeps (f a)) : Keeps (e >>= f) :=
  fun w => (he w).trans (hf (e.run w).1 (e.run w).2)

theorem perform (I : Interpretation ν σ) (p : Primitive ν) : Keeps (I.perform p) :=
  fun _ => List.prefix_append _ _

theorem reading {α : Type} {read : Option α} {go : α → Effect ν σ (Stage ν)}
    (h : ∀ a, Keeps (go a)) : Keeps (Stage.reading read go) := by
  cases read with
  | none => exact .pure _
  | some a => exact h a

theorem computing {c : Frame ν} {slot : Slot} {e : Effect ν σ ν} (h : Keeps e) :
    Keeps (Stage.computing c slot e) := h.bind fun _ => .pure _

theorem execute (I : Interpretation ν σ) (c : Frame ν) (i : Instr) :
    Keeps (Stage.execute I c i) := by
  cases i with
  | const r l => exact .computing (.perform I _)
  | unary r op x => exact .reading fun _ => .computing (.perform I _)
  | binary r x op y => exact .reading fun _ => .reading fun _ => .computing (.perform I _)
  | goto t => exact .pure _
  | gotoIf t x expected =>
    refine .reading fun v => .bind (.perform I _) fun b => ?_
    split <;> exact .pure _
  | call r f args => exact .reading fun _ => .reading fun _ => .computing (.perform I _)
  | load r n => exact .computing (.perform I _)
  | member r t n => exact .reading fun _ => .computing (.perform I _)
  | index r t k => exact .reading fun _ => .reading fun _ => .computing (.perform I _)
  | store n x => exact .reading fun _ => .bind (.perform I _) fun _ => .pure _
  | ret value =>
    cases value with
    | some x => exact .reading fun _ => .pure _
    | none =>
      simp only [Stage.execute]
      split
      · exact .pure _
      · exact .bind (.perform I _) fun _ => .pure _

theorem run (I : Interpretation ν σ) (steps : List Step) (count : Nat) (stage : Stage ν) :
    Keeps (Stage.run I steps count stage) := by
  induction count generalizing stage with
  | zero => exact .pure _
  | succ count ih =>
    cases stage with
    | running c => exact .bind (.reading fun s => .execute I c s.instr) ih
    | returned v => exact .pure _
    | stuck => exact .pure _

end Keeps

/-- What a run has performed when it is stopped is where a longer run begins. -/
theorem Code.performed_prefix (code : Code) (I : Interpretation ν σ) (s : σ) {m n : Nat}
    (h : m ≤ n) : code.performed I s m <+: code.performed I s n := by
  obtain ⟨k, rfl⟩ := Nat.exists_eq_add_of_le h
  unfold performed run
  rw [Stage.run_add, StateT.run_bind]
  exact Keeps.run I code.steps k _ _

end PathTyping
