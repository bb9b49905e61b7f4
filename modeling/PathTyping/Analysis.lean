import PathTyping.Memory
import PathTyping.Lookup
import PathTyping.Branch
import PathTyping.Options
import PathTyping.Code.Lower

/-!
# The analysis

An analysis runs in a state monad over its memory.  What surrounds the path at hand, the symbol
table, the limits and whatever else holds values, is a context that is passed along.

A member that was loaded from a receiver is called on that receiver as long as something holds it:
an arena, results that paths are still to be continued with, or results that are kept.

1. `holds_enter`: what an arena holds is held in the bodies that are called from it.
2. `body_of_kept`: the code of a body is made once.
-/

namespace PathTyping

/-- What surrounds a path. -/
structure Context where
  symbols : SymbolTable
  options : AnalysisOptions
  /-- The objects that are held by the resolutions that wait for this one, or by results of calls
  with which paths are still to be continued. -/
  held : Nat → Bool

namespace Context

/-- What surrounds a query from outside. -/
def outer (symbols : SymbolTable) (options : AnalysisOptions) : Context :=
  ⟨symbols, options, fun _ => false⟩

theorem symbols_outer (t : SymbolTable) (options : AnalysisOptions) :
    (outer t options).symbols = t := rfl

/-- What surrounds a body that is called from a path in `arena`. -/
def enter (ctx : Context) (arena : Arena) : Context :=
  { ctx with held := fun label => arena.holds label || ctx.held label }

def await (ctx : Context) (values : List Value) : Context :=
  { ctx with held := fun label => values.any (·.reaches label) || ctx.held label }

/-- The object `label` is still held by something. -/
def holds (ctx : Context) (m : Memory) (label : Nat) : Bool :=
  label != 0 && (ctx.held label || m.holds label)

theorem holds_enter {ctx : Context} {m : Memory} {arena : Arena} {label : Nat} (hl : label ≠ 0)
    (h : arena.holds label = true) : (ctx.enter arena).holds m label = true := by
  simp [holds, enter, h, hl]

end Context

abbrev Analysis := StateM Memory

namespace Analysis

def report (f : Finding) (span : Span) : Analysis Unit := modify (·.add (f.diagnostic span))

/-- The value as an object of its own. -/
def fresh (v : Value) : Analysis Value := modifyGet (·.place v)

/-- The value that was looked up, or `any` and a report of what was found instead. -/
def settle (found : Except Finding Value) (span : Span) : Analysis Value :=
  match found with
  | .ok v => pure v
  | .error f => do
    report f span
    pure .any

def reportLowering (e : LowerError) : Analysis Unit :=
  modify (·.add ⟨some .lowering, .error, e.message, some e.span⟩)

/-- The code of a body, which is made and kept when it is first asked for. -/
def body (t : SymbolTable) (id : Nat) : Analysis (Option Code) := do
  match Assoc.find? (← get).bodies id with
  | some kept => return kept
  | none =>
    let made ← match (t.method id).decl.toCode with
      | .ok code => pure (some code)
      | .error e => do
        reportLowering e
        pure none
    modify fun m => { m with bodies := Assoc.insert m.bodies id made }
    return made

theorem run_bind_of_eq {α β : Type} {x : Analysis α} {f : α → Analysis β} {m m' : Memory} {v : α}
    (h : x.run m = (v, m')) : (x >>= f).run m = (f v).run m' := by
  rw [StateT.run_bind, h]
  rfl

theorem body_of_kept {t : SymbolTable} {id : Nat} {m : Memory} {kept : Option Code}
    (h : Assoc.find? m.bodies id = some kept) : (body t id).run m = (kept, m) := by
  simp only [body, StateT.run_bind, StateT.run_get, pure_bind, h]
  rfl

end Analysis

end PathTyping
