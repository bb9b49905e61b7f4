import PathTyping.Call
import PathTyping.Value.Operators

/-!
# Walking code

A path is walked instruction by instruction on one branch until it ends or splits.  A conditional
jump splits it into the side that falls through and the side that jumps; a call with several
results splits it into one branch for each.  An instruction that the path has executed before ends
it, so a path is at most as long as the code and the walk is bounded by that length.

`step` does one instruction and says how the path goes on; `walk` follows that, and gives the
branches on which paths have ended, in the order in which they are explored.

1. `step_of_end`: behind the last instruction a path ends with what was computed last.
2. `walk_of_end`: there the path is one of the ends of the walk.
3. `walkAll_append`: rows of starts are walked one behind the other.
-/

namespace PathTyping

abbrev Walk := StateT Arena Analysis

/-- How a path goes on after an instruction. -/
inductive Next
  /-- On the same branch. -/
  | next (index : Nat)
  | stop (termination : Termination) (value : Value)
  /-- On branches that were made for it, one after the other. -/
  | split (starts : List (Nat × Nat))
  /-- On a new branch for each of the values, which is put into the slot. -/
  | spread (slot : Slot) (values : List Value) (index : Nat)

namespace Walk

/-! ## What an instruction does to a branch -/

def report (f : Finding) (span : Span) : Walk Unit := liftM (Analysis.report f span)

/-- The value as an object of its own. -/
def fresh (v : Value) : Walk Value := liftM (Analysis.fresh v)

def bindSlot (id : Nat) (slot : Slot) (v : Value) : Walk Unit := do
  let v ← fresh v
  modify (·.modify id (·.bindSlot slot v))

def rebindSlot (id : Nat) (slot : Slot) (v : Value) : Walk Unit := do
  let v ← fresh v
  modify (·.modify id (·.rebindSlot slot v))

def bindVariable (id : Nat) (name : String) (v : Value) : Walk Unit := do
  let v ← fresh v
  modify (·.modify id (·.bindVariable name v))

def finish (id : Nat) (termination : Termination) (v : Value) : Walk Unit := do
  let v ← fresh v
  modify (·.modify id (·.finish termination v))

/-- A new branch behind `id`. -/
def child (id : Nat) : Walk Nat := modifyGet fun arena => (arena.size, arena.child id)

/-- The value of a slot that is read. -/
def operand (id : Nat) (span : Span) (slot : Slot) : Walk Value := do
  match (← get).lookupSlot id slot with
  | some v => return v
  | none => do
    report (.missingOperand slot) span
    fresh .any

/-- What was computed last on the branch itself, or nil. -/
def latest (id : Nat) : Walk Value := do
  let branch? := (← get).branch? id
  return (branch?.bind Branch.top?).getD .nil

def settle (found : Except Finding Value) (span : Span) : Walk Value :=
  liftM (Analysis.settle found span)

def load (ctx : Context) (id : Nat) (span : Span) (name : String) : Walk Value := do
  let arena ← get
  match arena.lookupVariable id name with
  | some v => return v
  | none =>
    let self? := arena.lookupVariable id "self"
    settle (ctx.symbols.named (arena.scope id).owner self? name) span

/-- The member of the value in a slot.  A member that was found is kept as a property of the value
that is seen through the slot from there on. -/
def loadMember (ctx : Context) (id : Nat) (span : Span) (slot : Slot) (name : String) :
    Walk Value := do
  let target ← operand id span slot
  match target.property? name with
  | some kept => return kept
  | none =>
    match ctx.symbols.member target name with
    | .error f => settle (.error f) span
    | .ok v => do
      let v ← fresh v
      rebindSlot id slot (target.copy.setProperty name v)
      return v

/-- The results of a call of the value in a slot. -/
def results (invoke : Invoke) (ctx : Context) (id : Nat) (span : Span) (callee : Slot)
    (arguments : List Slot) : Walk (List Value) := do
  let callee ← operand id span callee
  let arguments ← arguments.mapM (operand id span)
  Analysis.call invoke (ctx.enter (← get)) callee arguments span

/-! ## Splitting -/

/-- Both sides of a jump, as far as the budget and the mode allow. -/
def fork (options : AnalysisOptions) (id target index : Nat) : Walk Next := do
  if options.maxBranches ≤ (← get).size then return .next index
  match options.forkMode with
  | .symmetric =>
    let fall ← child id
    let taken ← child id
    return .split [(fall, index), (taken, target)]
  | .fallthroughOnly =>
    let fall ← child id
    return .split [(fall, index)]

/-- The results of a call as far as the budget allows: one value for all if it is exhausted. -/
def affordable (options : AnalysisOptions) (size : Nat) (values : List Value) : List Value :=
  if 1 < values.length ∧ options.maxBranches < size + values.length then
    [.ofType (.join (values.map Value.type))]
  else values

def continueWith (id : Nat) (slot : Slot) (values : List Value) (index : Nat) : Walk Next :=
  match values with
  | [] => do
    bindSlot id slot .any
    return .next index
  | [v] => do
    bindSlot id slot v
    return .next index
  | several => return .spread slot several index

/-! ## Steps -/

/-- Executes an instruction that was not executed before on the path. -/
def execute (invoke : Invoke) (ctx : Context) (id index : Nat) (step : Step) : Walk Next := do
  let span := step.span
  match step.instr with
  | .const result l =>
    bindSlot id result (.ofLiteral l)
    return .next (index + 1)
  | .unary result op x =>
    bindSlot id result (Value.unary op (← operand id span x))
    return .next (index + 1)
  | .binary result x op y =>
    let v ← operand id span x
    let w ← operand id span y
    bindSlot id result ((Value.binary op v w).getD .any)
    return .next (index + 1)
  | .goto target => return .next target
  | .gotoIf target condition _ =>
    let _ ← operand id span condition
    fork ctx.options id target (index + 1)
  | .call result callee arguments =>
    let values ← results invoke ctx id span callee arguments
    continueWith id result (affordable ctx.options (← get).size values) (index + 1)
  | .load result name =>
    bindSlot id result (← load ctx id span name)
    return .next (index + 1)
  | .member result target name =>
    bindSlot id result (← loadMember ctx id span target name)
    return .next (index + 1)
  | .index result target key =>
    let v ← operand id span target
    let w ← operand id span key
    bindSlot id result (← settle (ctx.symbols.element v w) span)
    return .next (index + 1)
  | .store name value =>
    bindVariable id name (← operand id span value)
    return .next (index + 1)
  | .ret (some value) => return .stop .return_ (← operand id span value)
  | .ret none => return .stop .return_ (← latest id)

/-- Counts that the path reaches an instruction; whether it does so for the first time. -/
def arrive (id index : Nat) : Walk Bool := modifyGet (·.visit id index)

/-- The name of the body that the branch belongs to. -/
def bodyName (t : SymbolTable) (arena : Arena) (id : Nat) : String :=
  (arena.scope id).method.elim "<expression>" t.qualifiedName

def step (invoke : Invoke) (ctx : Context) (steps : Array Step) (id index : Nat) : Walk Next := do
  match steps[index]? with
  | none => return .stop .fallThrough (← latest id)
  | some step =>
    if ← arrive id index then execute invoke ctx id index step
    else
      report (.loopCutoff (bodyName ctx.symbols (← get) id)) step.span
      return .stop .loopCutoff .any

/-- Walks a branch of its own for each value.  The values whose turn has not come wait. -/
def walkEach (walk : Context → Nat → Walk (List Nat)) (ctx : Context) (id : Nat) (slot : Slot) :
    List Value → Walk (List Nat)
  | [] => return []
  | v :: rest => do
    let branch ← child id
    bindSlot branch slot v
    let ends ← walk (ctx.await rest) branch
    return ends ++ (← walkEach walk ctx id slot rest)

def walkAll (walk : Nat → Nat → Walk (List Nat)) : List (Nat × Nat) → Walk (List Nat)
  | [] => return []
  | (branch, index) :: rest => do
    let ends ← walk branch index
    return ends ++ (← walkAll walk rest)

/-- Walks a path that takes at most `fuel` steps from `index` on branch `id`.  The number of
instructions and one is enough: each step but the last executes another instruction. -/
def walk (invoke : Invoke) (steps : Array Step) : Nat → Context → Nat → Nat → Walk (List Nat)
  | 0, _, id, _ => do
    finish id .loopCutoff .any
    return [id]
  | fuel + 1, ctx, id, index => do
    match ← step invoke ctx steps id index with
    | .next index => walk invoke steps fuel ctx id index
    | .stop termination v =>
      finish id termination v
      return [id]
    | .split starts => walkAll (walk invoke steps fuel ctx) starts
    | .spread slot values index =>
      walkEach (fun ctx branch => walk invoke steps fuel ctx branch index) ctx id slot values

/-- All paths through `code` from `start` on branch `id`, by the branches on which they end. -/
def paths (invoke : Invoke) (ctx : Context) (code : Code) (id start : Nat) : Walk (List Nat) :=
  walk invoke code.steps.toArray (code.size + 1) ctx id start

theorem step_of_end {invoke : Invoke} {ctx : Context} {steps : Array Step}
    {id index : Nat} (h : steps[index]? = none) :
    step invoke ctx steps id index = (do return .stop .fallThrough (← latest id)) := by
  rw [step, h]

theorem walk_of_end {invoke : Invoke} {ctx : Context} {steps : Array Step} {fuel id index : Nat}
    (h : steps[index]? = none) :
    walk invoke steps (fuel + 1) ctx id index = (do
      finish id .fallThrough (← latest id)
      return [id]) := by
  rw [walk, step_of_end h]
  simp only [bind_assoc, pure_bind]

theorem walkAll_append (walk : Nat → Nat → Walk (List Nat)) (starts others : List (Nat × Nat)) :
    walkAll walk (starts ++ others) = (do
      let ends ← walkAll walk starts
      return ends ++ (← walkAll walk others)) := by
  induction starts with
  | nil => simp [walkAll]
  | cons start rest ih => simp [walkAll, ih, ← List.append_assoc]

end Walk

end PathTyping
