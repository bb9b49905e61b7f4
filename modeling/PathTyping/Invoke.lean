import PathTyping.Resolution

/-!
# Following calls

A call is followed into the body of the callee, and its results are what the paths through that
body return.  Results that are kept under the key of the call are given again.  A call is cut off,
which gives a value of the declared type, if the same call is already being followed or if as many
calls are as the limit allows.  Results that were computed across a cutoff are not kept.

The number of calls that may still be followed bounds the recursion.

1. `invoke_of_kept`: results that are kept answer a call.
2. `invoke_zero`: a call is cut off where the limit is reached and no results are kept.
3. `resultsOf_ne_nil`: a call that is followed gives at least one value.
-/

namespace PathTyping

namespace Analysis

/-- The value that stands for what a method returns where its body is not followed. -/
def declared (m : Method) : Value := .ofType (m.returns.getD .any)

/-- Reports that a call is not followed, and gives the value that stands for its results. -/
def cutOff (t : SymbolTable) (id : Nat) (span : Span) : Analysis (List Value) := do
  modify fun m => { m with cutoffs := m.cutoffs + 1 }
  report (.recursionCutoff (t.qualifiedName id)) span
  return [← fresh (declared (t.method id))]

/-- What a call gives its caller: the values that the body returns, of the declared type, each
once. -/
def resultsOf (m : Method) (r : Resolution) : List Value :=
  match Value.distinct (r.returnValues.map (Value.coerce m.returns)) with
  | [] => [declared m]
  | values => values

/-- Leaves a body.  Its results are kept if no call was cut off since there were `cutoffs`. -/
def leave (t : SymbolTable) (id : Nat) (receiver : Option Value) (arguments : List Value)
    (cutoffs : Nat) (r : Resolution) : Analysis (List Value) := do
  modify Memory.pop
  let values ← (resultsOf (t.method id) r).mapM fresh
  if (← get).cutoffs = cutoffs then
    modify (·.remember (.of t id receiver arguments) values)
  return values

/-- Follows a call into the body of its method. -/
def follow (deeper : Invoke) (ctx : Context) (id : Nat) (receiver : Option Value)
    (arguments : List Value) : Analysis (List Value) := do
  let t := ctx.symbols
  let m := t.method id
  match ← body t id with
  | none => return [← fresh (declared m)]
  | some code =>
    let cutoffs := (← get).cutoffs
    modify (·.push (.of t id receiver arguments))
    let r ← resolve deeper ctx code ⟨some id, m.owner⟩ (t.entryVariables m receiver arguments)
    leave t id receiver arguments cutoffs r

/-- The results of a call, where `deeper` follows the calls inside the callee if any may be. -/
def invokeWith (deeper : Option Invoke) : Invoke := fun ctx id receiver arguments span => do
  let m ← get
  match m.find? (.of ctx.symbols id receiver arguments) with
  | some values => return values
  | none =>
    match deeper with
    | none => cutOff ctx.symbols id span
    | some deeper =>
      if CallKey.of ctx.symbols id receiver arguments ∈ m.stack then cutOff ctx.symbols id span
      else follow deeper ctx id receiver arguments

/-- The results of a call where `depth` more calls may be followed. -/
def invoke : Nat → Invoke
  | 0 => invokeWith none
  | depth + 1 => invokeWith (some (invoke depth))

/-- Calls in a query that has the memory `m` to start with. -/
def calls (ctx : Context) (m : Memory) : Invoke :=
  invoke (ctx.options.maxCallDepth - m.stack.length)

theorem invokeWith_of_kept {deeper : Option Invoke} {ctx : Context} {id : Nat}
    {receiver : Option Value} {arguments : List Value} {span : Span} {m : Memory}
    {values : List Value}
    (h : m.find? (.of ctx.symbols id receiver arguments) = some values) :
    (invokeWith deeper ctx id receiver arguments span).run m = (values, m) := by
  simp only [invokeWith, StateT.run_bind, StateT.run_get, pure_bind, h]
  rfl

theorem invoke_of_kept {depth : Nat} {ctx : Context} {id : Nat} {receiver : Option Value}
    {arguments : List Value} {span : Span} {m : Memory} {values : List Value}
    (h : m.find? (.of ctx.symbols id receiver arguments) = some values) :
    (invoke depth ctx id receiver arguments span).run m = (values, m) := by
  cases depth <;> exact invokeWith_of_kept h

theorem invoke_zero {ctx : Context} {id : Nat} {receiver : Option Value} {arguments : List Value}
    {span : Span} {m : Memory} (h : m.find? (.of ctx.symbols id receiver arguments) = none) :
    (invoke 0 ctx id receiver arguments span).run m = (cutOff ctx.symbols id span).run m := by
  simp only [invoke, invokeWith, StateT.run_bind, StateT.run_get, pure_bind, h]

theorem resultsOf_ne_nil (m : Method) (r : Resolution) : resultsOf m r ≠ [] := by
  unfold resultsOf
  split <;> simp_all

end Analysis

end PathTyping
