import Mathlib
import PathTyping.Query
import PathTyping.Proofs.Following

/-!
# Resolution without a bound

The resolver once more, as one recursion without a bound on paths or on calls: all that keeps a path
from going round for ever is that it ends where it has been, and all that keeps calls from nesting
for ever are the guards of `invoke`.  Such a program, a search, may fail to give anything.  This one
also gives up as soon as the calls that are being followed are not in order, which it looks at
before every step, so that it gives something only if it ends and they are in order all the while.

1. Every walk of the resolver is a walk of the search (`finds_walks`).
2. A call leaves the calls that are being followed as they were (`abides_sameStack`).
3. Every call of the resolver is a call of the search, by induction on the calls that the limit
   leaves (`endsAs_invoke`).
4. All queries end with what the resolver gives (`queries_settle`).
-/

namespace PathTyping

/-- An analysis that may not end. -/
abbrev Search := StateT Memory Option

abbrev SearchWalk := StateT Arena Search

namespace Search

variable {α : Type}

def ofAnalysis (x : Analysis α) : Search α := fun m => some (x.run m)

def ofWalk (x : Walk α) : SearchWalk α := fun a m => some ((x.run a).run m)

/-- No call is followed inside of itself, and no more calls are followed than the limit allows, but
for the method that is asked for. -/
def Orderly (options : AnalysisOptions) (stack : List CallKey) : Prop :=
  stack.Nodup ∧ stack.length ≤ max 1 options.maxCallDepth

instance (options : AnalysisOptions) (stack : List CallKey) : Decidable (Orderly options stack) :=
  inferInstanceAs (Decidable (_ ∧ _))

/-- Gives up unless the calls that are being followed are in order. -/
def watch (options : AnalysisOptions) : Search Unit := fun m =>
  if Orderly options m.stack then some ((), m) else none

end Search

namespace Context

open Search (ofWalk ofAnalysis watch)

mutual

def walk (ctx : Context) (steps : Array Step) (id index : Nat) : SearchWalk (List Nat) := do
  watch ctx.options
  match ← ctx |>.step steps id index with
  | .next index => ctx |>.walk steps id index
  | .stop termination v =>
    ofWalk (Walk.finish id termination v)
    return [id]
  | .split starts => ctx |>.walkAll steps starts
  | .spread slot values index => ctx |>.walkEach steps id slot values index
partial_fixpoint

def walkAll (ctx : Context) (steps : Array Step) (starts : List (Nat × Nat)) :
    SearchWalk (List Nat) := do
  match starts with
  | [] => return []
  | (branch, index) :: rest =>
    let ends ← ctx |>.walk steps branch index
    return ends ++ (← ctx |>.walkAll steps rest)
partial_fixpoint

def walkEach (ctx : Context) (steps : Array Step) (id : Nat) (slot : Slot) (values : List Value)
    (index : Nat) : SearchWalk (List Nat) := do
  match values with
  | [] => return []
  | v :: rest =>
    let branch ← ofWalk (Walk.child id)
    ofWalk (Walk.bindSlot branch slot v)
    let ends ← ctx.await rest |>.walk steps branch index
    return ends ++ (← ctx |>.walkEach steps id slot rest index)
partial_fixpoint

def step (ctx : Context) (steps : Array Step) (id index : Nat) : SearchWalk Next := do
  match steps[index]? with
  | some ⟨.call result callee arguments, span⟩ =>
    if ← ofWalk (Walk.arrive id index) then
      let values ← ctx |>.results id span callee arguments
      ofWalk (do
        Walk.continueWith id result (Walk.affordable ctx.options (← get).size values) (index + 1))
    else
      ofWalk (do
        Walk.report (.loopCutoff (Walk.bodyName ctx.symbols (← get) id)) span
        return .stop .loopCutoff .any)
  | _ => ofWalk (Walk.step (fun _ _ _ _ _ => return []) ctx steps id index)
partial_fixpoint

def results (ctx : Context) (id : Nat) (span : Span) (callee : Slot) (arguments : List Slot) :
    SearchWalk (List Value) := do
  let callee ← ofWalk (Walk.operand id span callee)
  let arguments ← ofWalk (arguments.mapM (Walk.operand id span))
  fun arena => do return (← ctx.enter arena |>.call callee arguments span, arena)
partial_fixpoint

def call (ctx : Context) (callee : Value) (arguments : List Value) (span : Span) :
    Search (List Value) := do
  match ← ofAnalysis (Analysis.request ctx callee arguments span) with
  | .answered values => return values
  | .enter id receiver => ctx |>.invoke id receiver arguments span
partial_fixpoint

def invoke (ctx : Context) (id : Nat) (receiver : Option Value) (arguments : List Value)
    (span : Span) : Search (List Value) := do
  let m ← get
  match m.find? (.of ctx.symbols id receiver arguments) with
  | some values => return values
  | none =>
    let key := CallKey.of ctx.symbols id receiver arguments
    if key ∈ m.stack ∨ ctx.options.maxCallDepth ≤ m.stack.length then
      ofAnalysis (Analysis.cutOff ctx.symbols id span)
    else ctx |>.follow id receiver arguments
partial_fixpoint

def follow (ctx : Context) (id : Nat) (receiver : Option Value) (arguments : List Value) :
    Search (List Value) := do
  let t := ctx.symbols
  let m := t.method id
  match ← ofAnalysis (Analysis.body t id) with
  | none => return [← ofAnalysis (Analysis.fresh (Analysis.declared m))]
  | some code =>
    let cutoffs := (← get).cutoffs
    modify (·.push (.of t id receiver arguments))
    let r ← ctx |>.resolve code ⟨some id, m.owner⟩ (t.entryVariables m receiver arguments)
    ofAnalysis (Analysis.leave t id receiver arguments cutoffs r)
partial_fixpoint

def resolve (ctx : Context) (code : Code) (scope : Scope) (locals : List (String × Value)) :
    Search Resolution := do
  let (_, arena) ← (ofWalk (Walk.openRoot scope locals)).run .empty
  let (terminals, arena) ← (ctx |>.walk code.steps.toArray 0 0).run arena
  return ⟨arena, terminals, code⟩
partial_fixpoint

end

end Context

namespace Search

variable {α : Type}

/-! ## What a search finds -/

/-- At `m`, the search ends and does what the analysis does. -/
def EndsAs (x : Search α) (y : Analysis α) (m : Memory) : Prop := x m = some (y.run m)

/-- From `s` on, the search ends with `v` and leaves `s'` behind. -/
def Finds (x : SearchWalk α) (s : Walk.State) (v : α) (s' : Walk.State) : Prop :=
  (x.run s.1).run s.2 = some ((v, s'.1), s'.2)

section Finds

variable {β : Type} {x : SearchWalk α} {f : α → SearchWalk β} {s s' s'' : Walk.State} {v : α}
  {w : β}

theorem bind_of_eq {x : Search α} {f : α → Search β} {m m' : Memory} {v : α}
    (h : x m = some (v, m')) : (x >>= f) m = f v m' := by
  change (x m).bind (fun r => f r.1 r.2) = _
  rw [h]
  rfl

theorem endsAs_bind {x : Search α} {y : Analysis α} {f : α → Search β} {g : α → Analysis β}
    {m : Memory} (h : EndsAs x y m) (h' : EndsAs (f (y.run m).1) (g (y.run m).1) (y.run m).2) :
    EndsAs (x >>= f) (y >>= g) m := (bind_of_eq h).trans h'

theorem endsAs_get {f : Memory → Search β} {g : Memory → Analysis β} {m : Memory}
    (h : EndsAs (f m) (g m) m) : EndsAs (get >>= f) (get >>= g) m := h

theorem endsAs_look {x : Search β} {g : Memory → Analysis β} {m : Memory} (h : EndsAs x (g m) m) :
    EndsAs x (get >>= g) m := h

theorem finds_bind (h : Finds x s v s') (h' : Finds (f v) s' w s'') : Finds (x >>= f) s w s'' := by
  rw [Finds, StateT.run_bind, StateT.run_bind, h]
  exact h'

theorem finds_ofWalk {y : Walk α} (h : Gives y s v s') : Finds (ofWalk y) s v s' :=
  congrArg some h

end Finds

/-! ## Walks -/

/-- The calls that are followed are the same. -/
def SameStack (m m' : Memory) : Prop := m'.stack = m.stack

/-- Where these calls are being followed, a call gives what `invoke` gives. -/
def Agrees (invoke : Invoke) (options : AnalysisOptions) (stack : List CallKey) : Prop :=
  ∀ ctx id receiver arguments span m, ctx.options = options → m.stack = stack →
    EndsAs (ctx.invoke id receiver arguments span) (invoke ctx id receiver arguments span) m

section Agrees

variable {invoke : Invoke} {options : AnalysisOptions} {stack : List CallKey} {steps : Array Step}
  {ctx : Context} {id index : Nat} {s s' : Walk.State}

theorem endsAs_call (agrees : Agrees invoke options stack) (passes : Passes invoke SameStack)
    (ctx : Context) (same : ctx.options = options) {m : Memory} (held : m.stack = stack)
    (callee : Value) (arguments : List Value) (span : Span) :
    EndsAs (ctx.call callee arguments span) (Analysis.call invoke ctx callee arguments span) m := by
  have asked := (passes.admits 0).request ctx callee arguments span .empty m
  rw [Context.call]
  refine endsAs_bind rfl ?_
  rcases out : (Analysis.request ctx callee arguments span).run m with ⟨request, m'⟩
  rw [out] at asked
  cases request with
  | answered values => rfl
  | enter id receiver => exact agrees _ _ _ _ _ _ same (asked.trans held)

theorem finds_results (agrees : Agrees invoke options stack) (passes : Passes invoke SameStack)
    (same : ctx.options = options) (held : s.2.stack = stack) {span : Span} {callee : Slot}
    {arguments : List Slot} {values : List Value}
    (given : Gives (Walk.results invoke ctx id span callee arguments) s values s') :
    Finds (ctx.results id span callee arguments) s values s' := by
  have admits := passes.admits id
  obtain ⟨v, s₁, h₁, given⟩ := gives_bind_iff.1 given
  obtain ⟨vs, s₂, h₂, given⟩ := gives_bind_iff.1 given
  obtain ⟨a, s₃, h₃, given⟩ := gives_bind_iff.1 given
  obtain ⟨rfl, rfl⟩ := gives_get_iff.1 h₃
  have held : s₃.2.stack = stack := by
    rw [admits.operands _ _ h₂, admits.operand _ _ h₁, held]
  have called := endsAs_call agrees passes (ctx.enter s₃.1) same held v vs span
  rw [Context.results]
  refine finds_bind (finds_ofWalk h₁) (finds_bind (finds_ofWalk h₂) ?_)
  obtain ⟨rfl, rfl⟩ := gives_lift_iff.1 given
  exact (congrArg (Option.bind · fun r => some ((r.1, s₃.1), r.2)) called)

/-- Nothing but a call is followed. -/
theorem step_of_not_call (invoke' : Invoke)
    (other : ∀ result callee arguments span,
      steps[index]? ≠ some ⟨.call result callee arguments, span⟩) :
    Walk.step invoke ctx steps id index = Walk.step invoke' ctx steps id index := by
  unfold Walk.step
  split
  · rfl
  · next instruction found =>
    obtain ⟨instr, span⟩ := instruction
    have same : Walk.execute invoke ctx id index ⟨instr, span⟩ =
        Walk.execute invoke' ctx id index ⟨instr, span⟩ := by
      cases instr with
      | call result callee arguments => exact absurd found (other _ _ _ _)
      | ret value => cases value <;> rfl
      | _ => rfl
    rw [same]

theorem finds_step (agrees : Agrees invoke options stack) (passes : Passes invoke SameStack)
    (same : ctx.options = options) (held : s.2.stack = stack) {next : Next}
    (given : Gives (Walk.step invoke ctx steps id index) s next s') :
    Finds (ctx.step steps id index) s next s' := by
  rw [Context.step]
  split
  · next result callee arguments span found =>
    unfold Walk.step at given
    rw [found] at given
    obtain ⟨first, s₁, arrived, given⟩ := gives_bind_iff.1 given
    refine finds_bind (finds_ofWalk arrived) ?_
    cases first with
    | true =>
      obtain ⟨values, s₂, called, given⟩ := gives_bind_iff.1 given
      have memory : s₁.2 = s.2 := (congrArg Prod.snd arrived).symm
      exact finds_bind (finds_results agrees passes same (memory ▸ held) called)
        (finds_ofWalk given)
    | false => exact finds_ofWalk given
  · next other =>
    rw [step_of_not_call invoke fun result callee arguments span =>
      other result callee arguments span]
    exact finds_ofWalk given

/-- The search for a task. -/
def ofTask (steps : Array Step) : Task → SearchWalk (List Nat)
  | .path ctx id index => ctx.walk steps id index
  | .all ctx starts => ctx.walkAll steps starts
  | .each ctx id slot values index => ctx.walkEach steps id slot values index

end Agrees

theorem finds_watch {options : AnalysisOptions} {s : Walk.State}
    (orderly : Orderly options s.2.stack) : Finds (liftM (watch options)) s () s := by
  change (watch options s.2).bind (fun r => some ((r.1, s.1), r.2)) = _
  rw [watch, if_pos orderly]
  rfl

/-- A walk of the resolver is a search in which the calls are in order all the while. -/
theorem finds_walks {invoke : Invoke} {stack : List CallKey} {steps : Array Step} {task : Task}
    {s s' : Walk.State} {ends : List Nat} {P : Context → Nat → Nat → Walk.State → Prop}
    (h : Walks invoke steps P task s ends s') (agrees : Agrees invoke task.options stack)
    (passes : Passes invoke SameStack) (orderly : Orderly task.options stack)
    (held : s.2.stack = stack) : Finds (ofTask steps task) s ends s' := by
  induction h with
  | @onward ctx id index next task s s₁ s' ends _ done goes _ ih =>
    have same := Next.options_task goes
    have rest := ih (same ▸ agrees) (same ▸ orderly) ((passes.step done).trans held)
    rw [ofTask, Context.walk]
    refine finds_bind (finds_watch (held ▸ orderly)) <|
      finds_bind (finds_step agrees passes rfl held done) ?_
    cases next with
    | stop t v => cases goes
    | _ => cases goes; exact rest
  | stop _ done finished =>
    rw [ofTask, Context.walk]
    exact finds_bind (finds_watch (held ▸ orderly)) <|
      finds_bind (finds_step agrees passes rfl held done) <| finds_bind (finds_ofWalk finished) rfl
  | allNil => rw [ofTask, Context.walkAll]; rfl
  | allCons first _ ihFirst ihRest =>
    rw [ofTask, Context.walkAll]
    exact finds_bind (ihFirst agrees orderly held) <|
      finds_bind (ihRest agrees orderly ((first.passes passes).trans held)) rfl
  | eachNil => rw [ofTask, Context.walkEach]; rfl
  | eachCons bound first _ ihFirst ihRest =>
    have made := (passes.admits _).bindSlot _ _ bound
    have held₁ := made.trans held
    rw [ofTask, Context.walkEach]
    exact finds_bind (finds_ofWalk (Walk.gives_child_iff.2 ⟨rfl, rfl⟩)) <|
      finds_bind (finds_ofWalk bound) <| finds_bind (ihFirst agrees orderly held₁) <|
      finds_bind (ihRest agrees orderly ((first.passes passes).trans held₁)) rfl

end Search

/-! ## Calls -/

theorem Analysis.body_stack (t : SymbolTable) (id : Nat) (m : Memory) :
    Search.SameStack m ((body t id).run m).2 := by
  simp only [Search.SameStack, body, StateT.run_bind, StateT.run_get, pure_bind]
  cases Assoc.find? m.bodies id with
  | some kept => rfl
  | none => cases (t.method id).decl.toCode <;> rfl

/-- A call leaves the calls that are being followed as they were. -/
theorem abides_sameStack : Abides Search.SameStack where
  refl _ := rfl
  trans h h' := h'.trans h
  report _ _ := rfl
  place _ _ := rfl
  cut _ := rfl
  body := Analysis.body_stack
  enter h := congrArg List.tail h
  remember _ _ _ h := h

namespace Search

open Analysis (run_bind_of_eq)

variable {ctx : Context} {id : Nat} {receiver : Option Value} {arguments : List Value} {span : Span}
  {m : Memory} {depth : Nat}

theorem endsAs_resolve {invoke : Invoke} (agrees : Agrees invoke ctx.options m.stack)
    (passes : Passes invoke SameStack) (orderly : Orderly ctx.options m.stack) (code : Code)
    (scope : Scope) (locals : List (String × Value)) :
    EndsAs (ctx.resolve code scope locals) (Analysis.resolve invoke ctx code scope locals) m := by
  obtain ⟨s, ends, s', opened, walks, given⟩ := resolve_walks invoke ctx code scope locals m
  have found := finds_walks walks agrees passes orderly (abides_sameStack.openRoot opened)
  rw [EndsAs, given, Context.resolve]
  exact (bind_of_eq (congrArg some opened)).trans (bind_of_eq found)

theorem endsAs_follow {invoke : Invoke} (passes : Passes invoke SameStack)
    (agrees : Agrees invoke ctx.options (.of ctx.symbols id receiver arguments :: m.stack))
    (orderly : Orderly ctx.options (.of ctx.symbols id receiver arguments :: m.stack)) :
    EndsAs (ctx.follow id receiver arguments) (Analysis.follow invoke ctx id receiver arguments)
      m := by
  have entered := Analysis.body_stack ctx.symbols id m
  rw [Context.follow, Analysis.follow]
  refine endsAs_bind rfl ?_
  rcases out : (Analysis.body ctx.symbols id).run m with ⟨code?, m₁⟩
  rw [out] at entered
  cases code? with
  | none => rfl
  | some code =>
    have pushed : (m₁.push (.of ctx.symbols id receiver arguments)).stack =
        .of ctx.symbols id receiver arguments :: m.stack := congrArg _ entered
    rw [← pushed] at agrees orderly
    exact endsAs_get <| endsAs_bind (x := modify _) rfl <|
      endsAs_bind (endsAs_resolve agrees passes orderly _ _ _) rfl

/-- The guards of a call stand for what is left of the limit. -/
theorem endsAs_invokeWith {deeper? : Option Invoke}
    (full : deeper? = none → ctx.options.maxCallDepth ≤ m.stack.length)
    (room : ∀ deeper, deeper? = some deeper → m.stack.length < ctx.options.maxCallDepth)
    (follows : ∀ deeper, deeper? = some deeper →
      CallKey.of ctx.symbols id receiver arguments ∉ m.stack →
      EndsAs (ctx.follow id receiver arguments) (Analysis.follow deeper ctx id receiver arguments)
        m) :
    EndsAs (ctx.invoke id receiver arguments span)
      (Analysis.invokeWith deeper? ctx id receiver arguments span) m := by
  rw [Context.invoke, Analysis.invokeWith]
  refine endsAs_get ?_
  cases m.find? (.of ctx.symbols id receiver arguments) with
  | some values => rfl
  | none =>
    cases deeper? with
    | none =>
      dsimp only
      rw [if_pos (.inr (full rfl))]
      rfl
    | some deeper =>
      have room := Nat.not_le.2 (room deeper rfl)
      dsimp only
      by_cases again : CallKey.of ctx.symbols id receiver arguments ∈ m.stack
      · rw [if_pos (.inl again), if_pos again]
        rfl
      · rw [if_neg (not_or.2 ⟨again, room⟩), if_neg again]
        exact follows deeper rfl again

/-- A call is followed without a bound as it is with a bound of the calls that the limit leaves. -/
theorem endsAs_invoke (depth : Nat) (orderly : Orderly ctx.options m.stack)
    (left : depth = ctx.options.maxCallDepth - m.stack.length) :
    EndsAs (ctx.invoke id receiver arguments span)
      (Analysis.invoke depth ctx id receiver arguments span) m := by
  induction depth generalizing ctx id receiver arguments span m with
  | zero => exact endsAs_invokeWith (fun _ => Nat.sub_eq_zero_iff_le.1 left.symm) nofun nofun
  | succ depth ih =>
    have room : m.stack.length < ctx.options.maxCallDepth := by omega
    refine endsAs_invokeWith nofun (fun _ _ => room) fun deeper same new => ?_
    cases same
    have inside : Orderly ctx.options (.of ctx.symbols id receiver arguments :: m.stack) :=
      ⟨List.nodup_cons.2 ⟨new, orderly.1⟩, (Nat.succ_le_of_lt room).trans (Nat.le_max_right _ _)⟩
    refine endsAs_follow (abides_sameStack.passes depth) ?_ inside
    intro ctx' id' receiver' arguments' span' m' same held
    refine ih ?_ ?_
    · rwa [same, held]
    · rw [same, held, List.length_cons]
      omega

/-- Calls in a query go without a bound as they go with the bound of the query. -/
theorem agrees_calls (orderly : Orderly ctx.options m.stack) :
    Agrees (Analysis.calls ctx m) ctx.options m.stack :=
  fun ctx' id receiver arguments span m' same held =>
    endsAs_invoke _ (by rwa [same, held]) (by rw [same, held])

end Search

/-! ## Queries -/

namespace Search

open Analysis (run_bind_of_eq)

/-- All paths through the body of a method. -/
def resolveMethod (ctx : Context) (id : Nat) : Search Resolution := do
  let t := ctx.symbols
  match ← ofAnalysis (Analysis.body t id) with
  | none => return .empty
  | some code =>
    modify (·.push (Analysis.openCall t id))
    let scope : Scope := ⟨some id, (t.method id).owner⟩
    let r ← ctx.resolve code scope (t.scopeVariables scope)
    modify Memory.pop
    return r

def returnType (ctx : Context) (id : Nat) : Search Ty := do
  let r ← resolveMethod ctx id
  let returns := (ctx.symbols.method id).returns
  if r.terminals.isEmpty then return .any
  return .join (r.returnValues.map fun v => (v.coerce returns).type)

def resolveCode (ctx : Context) (code : Code) (scope : Scope) : Search Resolution :=
  ctx.resolve code scope (ctx.symbols.scopeVariables scope)

def typeOfExpression (ctx : Context) (e : Expr) (scope : Scope) : Search Ty := do
  match e.toCode with
  | .ok code => return (← resolveCode ctx code scope).returnType
  | .error e => do
    ofAnalysis (Analysis.reportLowering e)
    return .any

/-- A query ends, with the calls in order all the while, and leaves them as they were. -/
structure Settles {α : Type} (x : Search α) (y : Analysis α) (m : Memory) : Prop where
  ends : EndsAs x y m
  restored : SameStack m (y.run m).2

section Queries

variable {ctx : Context} {m : Memory}

theorem settles_bind {α β : Type} {x : Search α} {y : Analysis α} {f : α → Search β}
    {g : α → Analysis β} (h : Settles x y m) (h' : ∀ v m, Settles (f v) (g v) m) :
    Settles (x >>= f) (y >>= g) m where
  ends := endsAs_bind h.ends (h' _ _).ends
  restored := by
    rw [StateT.run_bind]
    exact (h' _ _).restored.trans h.restored

theorem settles_pure {α : Type} (v : α) (m : Memory) : Settles (pure v) (pure v) m := ⟨rfl, rfl⟩

theorem settles_resolve (orderly : Orderly ctx.options m.stack) (code : Code) (scope : Scope)
    (locals : List (String × Value)) :
    Settles (ctx.resolve code scope locals)
      (do Analysis.resolve (Analysis.calls ctx (← get)) ctx code scope locals) m where
  ends := endsAs_look <|
    endsAs_resolve (agrees_calls orderly) (abides_sameStack.passes _) orderly code scope locals
  restored := by
    rw [run_bind_of_eq (x := get) rfl]
    exact abides_sameStack.resolve (abides_sameStack.passes _) ctx code scope locals m

theorem orderly_of_idle (options : AnalysisOptions) : Orderly options [] :=
  ⟨List.nodup_nil, Nat.zero_le _⟩

theorem orderly_singleton (options : AnalysisOptions) (call : CallKey) : Orderly options [call] :=
  ⟨List.nodup_singleton _, Nat.le_max_left _ _⟩

theorem settles_resolveMethod (idle : m.stack = []) (id : Nat) :
    Settles (resolveMethod ctx id) (Analysis.resolveMethod ctx id) m := by
  have entered := Analysis.body_stack ctx.symbols id m
  rw [resolveMethod, Analysis.resolveMethod]
  rcases out : (Analysis.body ctx.symbols id).run m with ⟨code?, m₁⟩
  rw [out] at entered
  cases code? with
  | none => exact ⟨endsAs_bind rfl (by rw [out]; rfl), by rw [run_bind_of_eq out]; exact entered⟩
  | some code =>
    have pushed : (m₁.push (Analysis.openCall ctx.symbols id)).stack =
        [Analysis.openCall ctx.symbols id] := congrArg _ (entered.trans idle)
    have orderly : Orderly ctx.options (m₁.push (Analysis.openCall ctx.symbols id)).stack :=
      pushed ▸ orderly_singleton _ _
    constructor
    · refine endsAs_bind rfl ?_
      rw [out]
      exact endsAs_bind (x := modify _) rfl <| endsAs_look <| endsAs_bind
        (endsAs_resolve (agrees_calls orderly) (abides_sameStack.passes _) orderly _ _ _) rfl
    · have resolved := abides_sameStack.resolve
        (abides_sameStack.passes (ctx.options.maxCallDepth -
          (m₁.push (Analysis.openCall ctx.symbols id)).stack.length))
        ctx code ⟨some id, (ctx.symbols.method id).owner⟩
        (ctx.symbols.scopeVariables ⟨some id, (ctx.symbols.method id).owner⟩)
        (m₁.push (Analysis.openCall ctx.symbols id))
      rw [run_bind_of_eq out]
      dsimp only
      rw [run_bind_of_eq (x := modify _) rfl, run_bind_of_eq (x := get) rfl, StateT.run_bind]
      exact (congrArg List.tail resolved).trans entered

end Queries

/-- From outside, every query ends, whatever the symbol table, the limits, the code and its jumps
are; no call is ever followed inside of itself, nor are more calls followed than the limit allows or
one; and when the query has its answer, no call is being followed any more. -/
theorem queries_settle (ctx : Context) (m : Memory) (idle : m.stack = []) :
    (∀ id, Settles (resolveMethod ctx id) (Analysis.resolveMethod ctx id) m) ∧
      (∀ id, Settles (returnType ctx id) (Analysis.returnType ctx id) m) ∧
      (∀ code scope, Settles (resolveCode ctx code scope) (Analysis.resolveCode ctx code scope) m) ∧
      ∀ e scope,
        Settles (typeOfExpression ctx e scope) (Analysis.typeOfExpression ctx e scope) m := by
  have code (code : Code) (scope : Scope) :
      Settles (resolveCode ctx code scope) (Analysis.resolveCode ctx code scope) m :=
    settles_resolve (idle ▸ orderly_of_idle _) code scope _
  refine ⟨settles_resolveMethod idle, fun id => ?_, code, fun e scope => ?_⟩
  · rw [returnType, Analysis.returnType]
    refine settles_bind (settles_resolveMethod idle id) fun r m => ?_
    dsimp only
    split
    · exact settles_pure _ m
    · exact settles_pure _ m
  · rw [typeOfExpression, Analysis.typeOfExpression]
    cases e.toCode with
    | ok made => exact settles_bind (code made scope) fun _ => settles_pure _
    | error fault => exact ⟨rfl, rfl⟩

/-- A loop whose condition is called, with a jump out of the code, where nothing is allowed. -/
theorem queries_settle_looping :
    Memory.empty.stack = [] ∧
      Settles
        (resolveCode (.outer .empty ⟨.symmetric, 0, 0⟩)
          (.ofInstrs [.load 0 "f", .call 1 0 [0, 7], .gotoIf 99 1 false, .goto 0]) .module)
        (Analysis.resolveCode (.outer .empty ⟨.symmetric, 0, 0⟩)
          (.ofInstrs [.load 0 "f", .call 1 0 [0, 7], .gotoIf 99 1 false, .goto 0]) .module)
        .empty :=
  ⟨rfl, (queries_settle (.outer .empty ⟨.symmetric, 0, 0⟩) .empty rfl).2.2.1 _ _⟩

end Search

end PathTyping
