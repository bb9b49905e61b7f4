import PathTyping.Symbols

/-!
# Choosing among overloads

A candidate fits a call if it takes that number of arguments and each argument suits the parameter
that receives it.  Each suitable argument counts two points if it has the declared type and one if
it suits more loosely; the candidate with most points is chosen, the earliest of several.  If none
fits, the first candidate stands in.

1. `Choice.of?_eq_none_iff`: there is no choice exactly when nothing can be called.
-/

namespace PathTyping

/-- The candidate for a call, and whether it fits. -/
structure Choice where
  member : Member
  matched : Bool
  deriving DecidableEq, Inhabited

namespace Choice

/-- The points of an argument of type `argument` for a parameter of type `param`. -/
def points (param argument : Ty) : Option Nat :=
  if param.isAny || argument.isAny then some 1
  else if param = argument then some 2
  else if argument.isAssignableTo param || (argument.isUnion && argument.overlaps param) then some 1
  else none

/-- The parameter that receives the argument at `position`: the one there, or from a variadic
parameter on the first variadic one. -/
def receiver? (params : List Param) (position : Nat) : Option Param :=
  match params[position]? with
  | some p => if p.variadic then params.find? Param.variadic else some p
  | none => params.find? Param.variadic

/-- The points of all arguments from `position` on. -/
def total (params : List Param) (position : Nat) : List Ty → Option Nat
  | [] => some 0
  | argument :: rest => do
    let p ← receiver? params position
    let n ← points p.type argument
    let m ← total params (position + 1) rest
    return n + m

def acceptsCount (params : List Param) (count : Nat) : Bool :=
  minArity params ≤ count && (maxArity params).all (count ≤ ·)

/-- The points of a candidate that fits. -/
def score? (params : List Param) (arguments : List Ty) : Option Nat :=
  if acceptsCount params arguments.length then total params 0 arguments else none

/-- The better of two scored members, the first unless the second has more points. -/
def better (best : Option (Member × Nat)) (m : Member) (score : Option Nat) :
    Option (Member × Nat) :=
  match best, score with
  | best, none => best
  | none, some n => some (m, n)
  | some (b, k), some n => if k < n then some (m, n) else some (b, k)

def best? (arguments : List Ty) (candidates : List (Member × List Param)) :
    Option (Member × Nat) :=
  candidates.foldl (fun best (m, params) => better best m (score? params arguments)) none

/-- The candidates that can be called, with their parameters. -/
def callable (t : SymbolTable) (candidates : List Member) : List (Member × List Param) :=
  candidates.filterMap fun m => (t.params? m).map (m, ·)

end Choice

/-- The candidate that a call with these argument types goes to. -/
def Choice.of? (t : SymbolTable) (candidates : List Member) (arguments : List Ty) :
    Option Choice :=
  match callable t candidates with
  | [] => none
  | (fallback, params) :: rest =>
    match best? arguments ((fallback, params) :: rest) with
    | some (m, _) => some ⟨m, true⟩
    | none => some ⟨fallback, false⟩

theorem Choice.of?_eq_none_iff {t : SymbolTable} {candidates : List Member}
    {arguments : List Ty} :
    Choice.of? t candidates arguments = none ↔ ∀ m ∈ candidates, m.isCallable = false := by
  have key : callable t candidates = [] ↔ ∀ m ∈ candidates, m.isCallable = false := by
    simp only [callable, List.filterMap_eq_nil_iff, Option.map_eq_none_iff]
    refine forall₂_congr fun m _ => ?_
    rw [← t.params?_isSome m, Option.isSome_eq_false_iff, Option.isNone_iff_eq_none]
  rw [← key, of?]
  cases callable t candidates with
  | nil => simp
  | cons p rest => cases h : best? arguments (p :: rest) <;> simp [h]

end PathTyping
