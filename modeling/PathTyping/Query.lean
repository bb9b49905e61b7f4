import PathTyping.Invoke

/-!
# Queries

What can be asked of an analysis: what a method returns when its parameters are only known by their
declarations, what an expression of its body is, and what code or an expression gives in a scope.

1. `typeOfExpression_of_error`: an expression without code may be anything.
-/

namespace PathTyping

namespace Analysis

/-- The call that a method is when nothing is known of its arguments. -/
def openCall (t : SymbolTable) (id : Nat) : CallKey :=
  let m := t.method id
  ⟨id, m.owner.map t.instanceType, m.params.map Param.type⟩

/-- All paths through the body of a method; none if it has no code. -/
def resolveMethod (ctx : Context) (id : Nat) : Analysis Resolution := do
  let t := ctx.symbols
  match ← body t id with
  | none => return .empty
  | some code =>
    modify (·.push (openCall t id))
    let scope : Scope := ⟨some id, (t.method id).owner⟩
    let r ← resolve (calls ctx (← get)) ctx code scope (t.scopeVariables scope)
    modify Memory.pop
    return r

/-- What a method returns, as its callers see it. -/
def returnType (ctx : Context) (id : Nat) : Analysis Ty := do
  let r ← resolveMethod ctx id
  let returns := (ctx.symbols.method id).returns
  if r.terminals.isEmpty then return .any
  return .join (r.returnValues.map fun v => (v.coerce returns).type)

/-- What the expression at `span` in the body of a method is. -/
def typeAt (ctx : Context) (id : Nat) (span : Span) : Analysis (Option Ty) := do
  return (← resolveMethod ctx id).typeAt span

/-- All paths through code that stands in a scope. -/
def resolveCode (ctx : Context) (code : Code) (scope : Scope) : Analysis Resolution := do
  resolve (calls ctx (← get)) ctx code scope (ctx.symbols.scopeVariables scope)

def typeOfExpression (ctx : Context) (e : Expr) (scope : Scope) : Analysis Ty := do
  match e.toCode with
  | .ok code => return (← resolveCode ctx code scope).returnType
  | .error e => do
    reportLowering e
    return .any

theorem typeOfExpression_of_error {ctx : Context} {e : Expr} {fault : LowerError}
    (scope : Scope) (h : e.toCode = .error fault) :
    typeOfExpression ctx e scope = (do reportLowering fault; return .any) := by
  rw [typeOfExpression, h]

end Analysis

end PathTyping
