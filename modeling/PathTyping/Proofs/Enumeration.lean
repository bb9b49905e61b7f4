import PathTyping.Walk
import Mathlib.Data.Finset.Card

/-!
# Enumerating paths one by one

Code is interpreted naively: each path has all its bindings for itself, in one flat copy that is
handed on where the path splits, and remembers which instructions it has executed.  A conditional
jump is followed behind itself and then to its target; a call is followed with each of its results
in their order.  Calls are made by the same procedure and on the same memory as elsewhere.

A call asks which objects are still held.  Beside what a path binds these are the objects that were
bound where paths have split or ended, which the enumeration keeps for that purpose only.

1. `unexecuted_lt`: executing an instruction for the first time leaves fewer to execute.
-/

namespace PathTyping

/-- All that a path has bound. -/
structure Env where
  slots : Assoc Slot Value
  locals : Assoc String Value
  /-- What was computed since the path has split, the latest first. -/
  recent : List Value
  deriving Inhabited

/-- How a path goes on after an instruction. -/
inductive Turn
  | onward (index : Nat)
  | ended (termination : Termination) (value : Value)
  /-- At each of the targets. -/
  | forked (targets : List Nat)
  /-- With each of the results of a call. -/
  | called (slot : Slot) (results : List Value) (index : Nat)

/-- A program that works on the bindings of one path. -/
abbrev Track := StateT Env Analysis

namespace Env

/-- Everything that is bound. -/
def values (env : Env) : List Value :=
  env.slots.map Prod.snd ++ env.locals.map Prod.snd ++ env.recent

/-- What a path hands on where it splits. -/
def split (env : Env) : Env := { env with recent := [] }

end Env

namespace Track

def report (f : Finding) (span : Span) : Track Unit := liftM (Analysis.report f span)

def fresh (v : Value) : Track Value := liftM (Analysis.fresh v)

def bindSlot (slot : Slot) (v : Value) : Track Unit := do
  let v ← fresh v
  modify fun env => { env with slots := Assoc.insert env.slots slot v, recent := v :: env.recent }

def rebindSlot (slot : Slot) (v : Value) : Track Unit := do
  let v ← fresh v
  modify fun env => { env with slots := Assoc.insert env.slots slot v }

def bindVariable (name : String) (v : Value) : Track Unit := do
  let v ← fresh v
  modify fun env => { env with locals := Assoc.insert env.locals name v }

def operand (span : Span) (slot : Slot) : Track Value := do
  match Assoc.find? (← get).slots slot with
  | some v => return v
  | none => do
    report (.missingOperand slot) span
    fresh .any

def latest : Track Value := do return (← get).recent.head?.getD .nil

def settle (found : Except Finding Value) (span : Span) : Track Value :=
  liftM (Analysis.settle found span)

def load (t : SymbolTable) (scope : Scope) (span : Span) (name : String) : Track Value := do
  let env ← get
  match Assoc.find? env.locals name with
  | some v => return v
  | none => settle (t.named scope.owner (Assoc.find? env.locals "self") name) span

def loadMember (t : SymbolTable) (span : Span) (slot : Slot) (name : String) : Track Value := do
  let target ← operand span slot
  match target.property? name with
  | some kept => return kept
  | none =>
    match t.member target name with
    | .error f => settle (.error f) span
    | .ok v => do
      let v ← fresh v
      rebindSlot slot (target.copy.setProperty name v)
      return v

/-- The results of a call, where `kept` are values that paths have left behind. -/
def results (invoke : Invoke) (ctx : Context) (kept : List Value) (span : Span) (callee : Slot)
    (arguments : List Slot) : Track (List Value) := do
  let callee ← operand span callee
  let arguments ← arguments.mapM (operand span)
  Analysis.call invoke (ctx.await ((← get).values ++ kept)) callee arguments span

def continueWith (slot : Slot) (results : List Value) (index : Nat) : Track Turn :=
  match results with
  | [] => do
    bindSlot slot .any
    return .onward index
  | [v] => do
    bindSlot slot v
    return .onward index
  | several => return .called slot several index

def execute (invoke : Invoke) (ctx : Context) (scope : Scope) (kept : List Value) (index : Nat)
    (step : Step) : Track Turn := do
  let span := step.span
  match step.instr with
  | .const result l =>
    bindSlot result (.ofLiteral l)
    return .onward (index + 1)
  | .unary result op x =>
    bindSlot result (Value.unary op (← operand span x))
    return .onward (index + 1)
  | .binary result x op y =>
    let v ← operand span x
    let w ← operand span y
    bindSlot result ((Value.binary op v w).getD .any)
    return .onward (index + 1)
  | .goto target => return .onward target
  | .gotoIf target condition _ =>
    let _ ← operand span condition
    return .forked [index + 1, target]
  | .call result callee arguments =>
    continueWith result (← results invoke ctx kept span callee arguments) (index + 1)
  | .load result name =>
    bindSlot result (← load ctx.symbols scope span name)
    return .onward (index + 1)
  | .member result target name =>
    bindSlot result (← loadMember ctx.symbols span target name)
    return .onward (index + 1)
  | .index result target key =>
    let v ← operand span target
    let w ← operand span key
    bindSlot result (← settle (ctx.symbols.element v w) span)
    return .onward (index + 1)
  | .store name value =>
    bindVariable name (← operand span value)
    return .onward (index + 1)
  | .ret (some value) => return .ended .return_ (← operand span value)
  | .ret none => return .ended .return_ (← latest)

end Track

/-! ## Paths -/

/-- An enumeration keeps the values that paths have left behind. -/
abbrev Enumeration := StateT (List Value) Analysis

/-- How a path has ended, and what it returns. -/
abbrev Ending := Termination × Value

namespace Enumeration

def keep (values : List Value) : Enumeration Unit := modify (values ++ ·)

/-- Ends a path. -/
def finish (env : Env) (termination : Termination) (v : Value) : Enumeration (List Ending) := do
  let v ← (liftM (Analysis.fresh v) : Enumeration Value)
  keep (v :: env.values)
  return [(termination, v)]

/-- The endings of some paths, one path behind the other. -/
def gather {α : Type} (follow : α → Enumeration (List Ending)) :
    List α → Enumeration (List Ending)
  | [] => return []
  | start :: rest => do
    let endings ← follow start
    return endings ++ (← gather follow rest)

/-- The endings for each of the results of a call.  The results whose turn has not come wait. -/
def gatherEach (follow : Context → Env → Enumeration (List Ending)) (ctx : Context) (env : Env)
    (slot : Slot) : List Value → Enumeration (List Ending)
  | [] => return []
  | v :: rest => do
    let (_, bound) ← (liftM ((Track.bindSlot slot v).run env.split) : Enumeration (Unit × Env))
    let endings ← follow (ctx.await rest) bound
    return endings ++ (← gatherEach follow ctx env slot rest)

/-- The instructions that are left to execute. -/
def unexecuted (steps : Array Step) (executed : Finset Nat) : Nat :=
  (Finset.range steps.size \ executed).card

theorem unexecuted_lt {steps : Array Step} {executed : Finset Nat} {index : Nat}
    (inside : index < steps.size) (first : index ∉ executed) :
    unexecuted steps (insert index executed) < unexecuted steps executed := by
  refine Finset.card_lt_card ⟨fun i hi => ?_, fun sub => ?_⟩
  · obtain ⟨hi, out⟩ := Finset.mem_sdiff.1 hi
    exact Finset.mem_sdiff.2 ⟨hi, fun seen => out (Finset.mem_insert_of_mem seen)⟩
  · have := sub (Finset.mem_sdiff.2 ⟨Finset.mem_range.2 inside, first⟩)
    exact (Finset.mem_sdiff.1 this).2 (Finset.mem_insert_self _ _)

/-- The endings of all paths that go on at `index` with the bindings `env`, where the path so far
has executed the instructions in `executed`. -/
def follow (invoke : Invoke) (steps : Array Step) (scope : Scope) (ctx : Context)
    (executed : Finset Nat) (env : Env) (index : Nat) : Enumeration (List Ending) := do
  if inside : index < steps.size then
    let step := steps[index]
    if again : index ∈ executed then
      let name := scope.method.elim "<expression>" ctx.symbols.qualifiedName
      (liftM (Analysis.report (.loopCutoff name) step.span) : Enumeration Unit)
      finish env .loopCutoff .any
    else
      let kept ← get
      let (turn, env) ← (liftM ((Track.execute invoke ctx scope kept index step).run env) :
        Enumeration (Turn × Env))
      match turn with
      | .onward target => follow invoke steps scope ctx (insert index executed) env target
      | .ended termination v => finish env termination v
      | .forked targets => do
        keep env.values
        gather (follow invoke steps scope ctx (insert index executed) env.split) targets
      | .called slot results target => do
        keep env.values
        gatherEach (fun ctx env => follow invoke steps scope ctx (insert index executed) env target)
          ctx env slot results
  else finish env .fallThrough (env.recent.head?.getD .nil)
termination_by unexecuted steps executed
decreasing_by all_goals exact unexecuted_lt inside again

section Follow

variable {invoke : Invoke} {steps : Array Step} {scope : Scope} {ctx : Context}
  {executed : Finset Nat} {env : Env} {index : Nat}

/-- What is left of a path after an instruction. -/
def after (invoke : Invoke) (steps : Array Step) (scope : Scope) (ctx : Context)
    (executed : Finset Nat) (env : Env) : Turn → Enumeration (List Ending)
  | .onward target => follow invoke steps scope ctx executed env target
  | .ended termination v => finish env termination v
  | .forked targets => do
    keep env.values
    gather (follow invoke steps scope ctx executed env.split) targets
  | .called slot results target => do
    keep env.values
    gatherEach (fun ctx env => follow invoke steps scope ctx executed env target) ctx env slot
      results

theorem follow_of_end (h : steps[index]? = none) :
    follow invoke steps scope ctx executed env index =
      finish env .fallThrough (env.recent.head?.getD .nil) := by
  rw [follow, dif_neg (Nat.not_lt.2 (Array.getElem?_eq_none_iff.1 h))]

theorem follow_again {step : Step} (h : steps[index]? = some step) (again : index ∈ executed) :
    follow invoke steps scope ctx executed env index = (do
      liftM (Analysis.report
        (.loopCutoff (scope.method.elim "<expression>" ctx.symbols.qualifiedName)) step.span)
      finish env .loopCutoff .any) := by
  obtain ⟨inside, rfl⟩ := Array.getElem?_eq_some_iff.1 h
  rw [follow, dif_pos inside, dif_pos again]

theorem follow_first {step : Step} (h : steps[index]? = some step) (first : index ∉ executed) :
    follow invoke steps scope ctx executed env index = (do
      let kept ← get
      let (turn, env) ← (liftM ((Track.execute invoke ctx scope kept index step).run env) :
        Enumeration (Turn × Env))
      after invoke steps scope ctx (insert index executed) env turn) := by
  obtain ⟨inside, rfl⟩ := Array.getElem?_eq_some_iff.1 h
  rw [follow, dif_pos inside, dif_neg first]
  refine bind_congr fun kept => bind_congr fun (turn, env) => ?_
  cases turn <;> rfl

end Follow

end Enumeration

end PathTyping
