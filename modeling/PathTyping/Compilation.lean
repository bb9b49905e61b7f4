import PathTyping.Query
import PathTyping.Tree.Declaration
import PathTyping.Symbols.Declare

/-!
# Compilations

A text is read, its declarations are filed, and one analysis asks what each of its methods returns.
A compilation fails only if the text cannot be read; what is found after that is in its report.

1. `Module.exists_tokens`: a module that can be read is read from the tokens of its text.
2. `ofText_eq_error_iff`: a compilation fails exactly when the text cannot be read.
-/

namespace PathTyping

/-- What is known of one method. -/
structure Summary where
  id : Nat
  /-- The name, behind that of its class if it has one. -/
  name : String
  returns : Ty
  /-- Nothing if the body has no code. -/
  code : Option Code
  deriving Inhabited

structure Compilation where
  symbols : SymbolTable
  options : AnalysisOptions
  summaries : List Summary
  report : Report
  deriving Inhabited

/-- Why a text cannot be read. -/
inductive ReadFailure
  | scan (error : ScanError)
  | parse (failure : ParseFailure)
  deriving Inhabited

namespace ReadFailure

/-- What is reported of the failure. -/
def report : ReadFailure → Report
  | scan e => Report.empty.add (.error e.message (some (.point e.place.line e.place.column)))
  | parse f => f.report

/-- The message of the fault itself. -/
def message : ReadFailure → String
  | scan e => e.message
  | parse f => f.error.message

/-- There was not one token to read. -/
def isEmptyText : ReadFailure → Bool
  | parse ⟨.nothingToRead, _⟩ => true
  | _ => false

/-- What failed, and why, outermost first. -/
def causes : ReadFailure → List String
  | scan _ => ["Lexing failed"]
  | parse f => ["Parsing failed", f.error.message]

end ReadFailure

/-- A module from its text, with what is reported of a text that can be read. -/
def Module.ofText (text : String) : Except ReadFailure (Module × Report) :=
  match TokenRow.ofText text with
  | .error e => .error (.scan e)
  | .ok row =>
    match Module.ofTokens row with
    | .error f => .error (.parse f)
    | .ok found => .ok found

def Expr.ofText (text : String) : Except ReadFailure Expr :=
  match TokenRow.ofText text with
  | .error e => .error (.scan e)
  | .ok row =>
    match Expr.ofTokens row with
    | .error f => .error (.parse f)
    | .ok (e, _) => .ok e

/-- A module that can be read is read from the tokens of its text. -/
theorem Module.exists_tokens {text : String} {found : Module × Report}
    (parsed : Module.ofText text = .ok found) :
    ∃ row, TokenRow.ofText text = .ok row ∧ Module.ofTokens row = .ok found := by
  unfold Module.ofText at parsed
  split at parsed
  · cases parsed
  · next row scanned =>
    split at parsed
    · cases parsed
    · next found' read =>
      cases parsed
      exact ⟨row, scanned, read⟩

def Analysis.summary (ctx : Context) (id : Nat) : Analysis Summary := do
  let returns ← returnType ctx id
  return ⟨id, ctx.symbols.qualifiedName id, returns, ← body ctx.symbols id⟩

/-- The summaries of all methods, by one analysis. -/
def Analysis.summaries (ctx : Context) : Analysis (List Summary) :=
  (List.range ctx.symbols.methods.length).mapM (summary ctx)

namespace Compilation

/-- Compiles a module; `read` is what was reported when it was read. -/
def ofModule (options : AnalysisOptions) (m : Module) (read : Report) : Compilation :=
  let (symbols, declared) := SymbolTable.ofModule m
  let (summaries, memory) := (Analysis.summaries (.outer symbols options)).run .empty
  ⟨symbols, options, summaries, (read.merge declared).merge memory.report⟩

def ofText (options : AnalysisOptions) (text : String) : Except ReadFailure Compilation :=
  (Module.ofText text).map fun (m, read) => ofModule options m read

/-- The summaries under a name; overloads share one. -/
def named (c : Compilation) (name : String) : List Summary :=
  c.summaries.filter (·.name == name)

def returnTypeOf? (c : Compilation) (name : String) : Option Ty :=
  (c.named name).head?.map Summary.returns

/-- What an expression is among the members of the module, and what is reported of it. -/
def expressionType (c : Compilation) (text : String) : Except ReadFailure (Ty × Report) :=
  (Expr.ofText text).map fun e =>
    let ctx := Context.outer c.symbols c.options
    let (type, memory) := (Analysis.typeOfExpression ctx e .module).run .empty
    (type, memory.report)

theorem ofText_eq_error_iff {options : AnalysisOptions} {text : String} {f : ReadFailure} :
    ofText options text = .error f ↔ Module.ofText text = .error f := by
  unfold ofText
  cases Module.ofText text <;> simp [Except.map]

end Compilation

end PathTyping
