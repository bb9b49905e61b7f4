import PathTyping.Walk

/-!
# Resolutions

A resolution is what a walk from a fresh root leaves behind: the arena, the branches on which paths
have ended, and the code.  It answers what the code returns and what each of its expressions can be.

1. `returnValues_of_cutoffs`: paths that were cut off count only where nothing else ended.
2. `distinct_nil`, `mem_of_mem_distinct`: of values with one type and constant the first is kept.
3. `coerce_type`: after a coercion every type fits the declared one.
-/

namespace PathTyping

structure Resolution where
  arena : Arena
  /-- The branches on which paths ended, in the order in which they were explored. -/
  terminals : List Nat
  code : Code
  deriving Inhabited

namespace Resolution

/-- The resolution of a body that has no code. -/
def empty : Resolution := ⟨.empty, [], .empty⟩

def ends (r : Resolution) : List Branch := r.terminals.filterMap r.arena.branch?

def isCutoff (b : Branch) : Bool := b.termination == some .loopCutoff

/-- What paths return that have ended on some branches.  A path that was cut off counts only if all
of them were. -/
def returnsOf (ends : List Branch) : List Value :=
  match (ends.filter fun b => !isCutoff b).filterMap Branch.returned with
  | [] => ends.filterMap Branch.returned
  | values => values

def returnValues (r : Resolution) : List Value := returnsOf r.ends

def returnType (r : Resolution) : Ty := .join (r.returnValues.map Value.type)

/-- What the expression at `span` is on the paths that reach it. -/
def typeAt (r : Resolution) (span : Span) : Option Ty :=
  match r.code.slotFor? span with
  | none => none
  | some slot =>
    match r.terminals.filterMap fun id => r.arena.lookupSlot id slot with
    | [] => none
    | values => some (.join (values.map Value.type))

theorem returnValues_of_cutoffs {r : Resolution} (h : ∀ b ∈ r.ends, isCutoff b = true) :
    r.returnValues = r.ends.filterMap Branch.returned := by
  have none_left : r.ends.filter (fun b => !isCutoff b) = [] := by
    simpa [List.filter_eq_nil_iff] using h
  rw [returnValues, returnsOf, none_left]
  rfl

end Resolution

namespace Value

/-- A value that does not fit the declared type is replaced by one of that type. -/
def coerce (declared : Option Ty) (v : Value) : Value :=
  match declared with
  | none => v
  | some type => if v.type.isAssignableTo type then v else .ofType type

/-- Two values with which paths go on alike. -/
def alike (v w : Value) : Bool :=
  v.type == w.type &&
    match v.constant, w.constant with
    | some a, some b => a.same b
    | none, none => true
    | _, _ => false

/-- The values that are like none before them. -/
def distinctFrom (seen : List Value) : List Value → List Value
  | [] => []
  | v :: rest =>
    if seen.any (·.alike v) then distinctFrom seen rest else v :: distinctFrom (seen ++ [v]) rest

def distinct (values : List Value) : List Value := distinctFrom [] values

theorem coerce_type (type : Ty) (v : Value) :
    (v.coerce (some type)).type.isAssignableTo type = true := by
  simp only [coerce]
  split
  · assumption
  · exact type.isAssignableTo_self

@[simp] theorem coerce_none (v : Value) : v.coerce none = v := rfl

@[simp] theorem distinct_nil : distinct [] = [] := rfl

theorem mem_of_mem_distinctFrom {seen values : List Value} {v : Value}
    (h : v ∈ distinctFrom seen values) : v ∈ values := by
  induction values generalizing seen with
  | nil => exact h
  | cons w rest ih =>
    simp only [distinctFrom] at h
    split at h
    · exact List.mem_cons_of_mem _ (ih h)
    · rcases List.mem_cons.1 h with rfl | h
      · exact List.mem_cons_self
      · exact List.mem_cons_of_mem _ (ih h)

theorem mem_of_mem_distinct {values : List Value} {v : Value} (h : v ∈ distinct values) :
    v ∈ values := mem_of_mem_distinctFrom h

end Value

/-! ## Entering code -/

/-- What a parameter is bound to.  An argument that fits keeps what is known of it; the declared
type stands for any other, and for a missing argument unless the default is a literal that fits. -/
def Param.bound (p : Param) (argument : Option Value) : Value :=
  if p.variadic then .any
  else
    match argument, p.default with
    | some v, _ => if v.type.isAssignableTo p.type then v.copy else .ofType p.type
    | none, some (.literal l) =>
      if (Ty.ofLiteral l).isAssignableTo p.type then .ofLiteral l else .ofType p.type
    | none, _ => .ofType p.type

def boundParams (params : List Param) (arguments : List Value) : List (String × Value) :=
  params.zipIdx.map fun (p, i) => (p.name, p.bound arguments[i]?)

/-- What a method is called on: the receiver at hand, or a fresh instance. -/
def SymbolTable.receiver? (t : SymbolTable) (m : Method) (receiver : Option Value) :
    Option Value :=
  m.owner.map fun owner => receiver.getD (.ofType (t.instanceType owner))

/-- The variables with which the body of a method starts. -/
def SymbolTable.entryVariables (t : SymbolTable) (m : Method) (receiver : Option Value)
    (arguments : List Value) : List (String × Value) :=
  boundParams m.params arguments ++ ((t.receiver? m receiver).map ("self", ·)).toList

/-- The variables with which code in a scope starts. -/
def SymbolTable.scopeVariables (t : SymbolTable) (scope : Scope) : List (String × Value) :=
  match scope.method, scope.owner with
  | some id, _ => t.entryVariables (t.method id) none []
  | none, some owner => [("self", .ofType (t.instanceType owner))]
  | none, none => []

/-- A fresh root with these variables. -/
def Walk.openRoot (scope : Scope) (locals : List (String × Value)) : Walk Unit := do
  modify (·.root scope)
  locals.forM fun (name, v) => bindVariable 0 name v

/-- All paths through `code` from a fresh root with these variables. -/
def Walk.fromRoot (invoke : Invoke) (ctx : Context) (code : Code) (scope : Scope)
    (locals : List (String × Value)) : Walk (List Nat) := do
  openRoot scope locals
  paths invoke ctx code 0 0

def Analysis.resolve (invoke : Invoke) (ctx : Context) (code : Code) (scope : Scope)
    (locals : List (String × Value)) : Analysis Resolution := do
  let (terminals, arena) ← (Walk.fromRoot invoke ctx code scope locals).run .empty
  return ⟨arena, terminals, code⟩

/-- The variables of a parameter list are those of the parameters, in their order. -/
theorem boundParams_names (params : List Param) (arguments : List Value) :
    (boundParams params arguments).map Prod.fst = params.map Param.name := by
  simp only [boundParams, List.map_map]
  rw [show (Prod.fst ∘ fun x : Param × Nat => (x.1.name, x.1.bound arguments[x.2]?)) =
    Param.name ∘ Prod.fst from rfl, ← List.map_map, List.zipIdx_map_fst]

end PathTyping
