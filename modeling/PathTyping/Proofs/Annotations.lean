import PathTyping.Proofs.Canonical
import PathTyping.Proofs.Sound
import PathTyping.Proofs.Readings

/-!
# Annotations at the boundaries of calls

A parameter with a declared type is bound to a value of that type, whatever the call gives for it,
and what a call hands back is of the type that its method declares.  Both hold at every call that
comes up in the analysis of a module, by whatever way the call gets its results: from the paths
through the body, from results that are kept, from a cutoff, or where the body has no code.

1. A call comes up in a resolution where a path stands at its instruction (`Leads`, `Issues`); a
   call that is followed is a resolution in its turn (`Occurs`).
2. Every call of an analysis is made, in a sound memory, with values of any kind that the analysis
   keeps to (`Occurs.sound`).
3. When a body is entered, each parameter has a value of its declared type
   (`lookupVariable_entry`).
4. `annotations_hold`: of both sides of a call, and of what a method is said to return.
-/

namespace PathTyping

open Walk

/-! ## The calls of an analysis -/

/-- The memory of an analysis that was asked some queries, one behind the other. -/
inductive Asked (ctx : Context) : Memory → Prop
  | start : Asked ctx .empty
  | body {m : Memory} (id : Nat) (before : Asked ctx m) :
      Asked ctx ((Analysis.body ctx.symbols id).run m).2
  | resolveMethod {m : Memory} (id : Nat) (before : Asked ctx m) :
      Asked ctx ((Analysis.resolveMethod ctx id).run m).2
  | returnType {m : Memory} (id : Nat) (before : Asked ctx m) :
      Asked ctx ((Analysis.returnType ctx id).run m).2
  | typeAt {m : Memory} (id : Nat) (span : Span) (before : Asked ctx m) :
      Asked ctx ((Analysis.typeAt ctx id span).run m).2
  | resolveCode {m : Memory} (code : Code) (scope : Scope) (before : Asked ctx m) :
      Asked ctx ((Analysis.resolveCode ctx code scope).run m).2
  | typeOfExpression {m : Memory} (e : Expr) (scope : Scope) (before : Asked ctx m) :
      Asked ctx ((Analysis.typeOfExpression ctx e scope).run m).2

/-- On its way from one state, a walk comes to another state and to a task that it walks from
there. -/
inductive Leads (invoke : Invoke) (steps : Array Step) : Task → State → Task → State → Prop
  | here {task : Task} {s : State} : Leads invoke steps task s task s
  | onward {ctx : Context} {id index : Nat} {next : Next} {task task' : Task} {s s₁ s' : State}
      (done : Gives (step invoke ctx steps id index) s next s₁)
      (goes : next.task? ctx id = some task) (rest : Leads invoke steps task s₁ task' s') :
      Leads invoke steps (.path ctx id index) s task' s'
  | first {ctx : Context} {id index : Nat} {starts : List (Nat × Nat)} {task' : Task}
      {s s' : State} (rest : Leads invoke steps (.path ctx id index) s task' s') :
      Leads invoke steps (.all ctx ((id, index) :: starts)) s task' s'
  | later {ctx : Context} {id index : Nat} {starts : List (Nat × Nat)} {task' : Task}
      {s s₁ s' : State} {ends : List Nat}
      (before : Walks invoke steps (fun _ _ _ _ => True) (.path ctx id index) s ends s₁)
      (rest : Leads invoke steps (.all ctx starts) s₁ task' s') :
      Leads invoke steps (.all ctx ((id, index) :: starts)) s task' s'
  | eachFirst {ctx : Context} {id index : Nat} {slot : Slot} {v : Value} {values : List Value}
      {task' : Task} {s s₁ s' : State}
      (bound : Gives (bindSlot s.1.size slot v) (s.1.child id, s.2) () s₁)
      (rest : Leads invoke steps (.path (ctx.await values) s.1.size index) s₁ task' s') :
      Leads invoke steps (.each ctx id slot (v :: values) index) s task' s'
  | eachLater {ctx : Context} {id index : Nat} {slot : Slot} {v : Value} {values : List Value}
      {task' : Task} {s s₁ s₂ s' : State} {ends : List Nat}
      (bound : Gives (bindSlot s.1.size slot v) (s.1.child id, s.2) () s₁)
      (before : Walks invoke steps (fun _ _ _ _ => True)
        (.path (ctx.await values) s.1.size index) s₁ ends s₂)
      (rest : Leads invoke steps (.each ctx id slot values index) s₂ task' s') :
      Leads invoke steps (.each ctx id slot (v :: values) index) s task' s'

/-- A call of a method: how many calls may be followed from here, what it is made with, and in
which memory. -/
structure MethodCall where
  depth : Nat
  ctx : Context
  id : Nat
  receiver : Option Value
  arguments : List Value
  span : Span
  memory : Memory

namespace MethodCall

/-- What the call hands back. -/
def results (c : MethodCall) : List Value :=
  ((Analysis.invoke c.depth c.ctx c.id c.receiver c.arguments c.span).run c.memory).1

def key (c : MethodCall) : MemoKey := .of c.ctx.symbols c.id c.receiver c.arguments

def scope (c : MethodCall) : Scope := ⟨some c.id, (c.ctx.symbols.method c.id).owner⟩

/-- The variables with which the body of the method starts. -/
def locals (c : MethodCall) : List (String × Value) :=
  c.ctx.symbols.entryVariables (c.ctx.symbols.method c.id) c.receiver c.arguments

end MethodCall

/-- A path that stands at an instruction for the first time calls a method there. -/
def Issues (steps : Array Step) (ctx : Context) (id index : Nat) (s : State) (c : MethodCall) :
    Prop :=
  ∃ result callee arguments v s₀ s₁ s₂,
    steps[index]? = some ⟨.call result callee arguments, c.span⟩ ∧
      Gives (arrive id index) s true s₀ ∧ Gives (operand id c.span callee) s₀ v s₁ ∧
      Gives (arguments.mapM (operand id c.span)) s₁ c.arguments s₂ ∧ c.ctx = ctx.enter s₂.1 ∧
      (Analysis.request c.ctx v c.arguments c.span).run s₂.2 = (.enter c.id c.receiver, c.memory)

/-- The call comes up in a resolution. -/
def Raises (ctx : Context) (code : Code) (scope : Scope) (locals : List (String × Value))
    (m : Memory) (c : MethodCall) : Prop :=
  ∃ s ctx' id index s', Gives (openRoot scope locals) (.empty, m) () s ∧
    Leads (Analysis.invoke c.depth) code.steps.toArray (.path ctx 0 0) s (.path ctx' id index) s' ∧
    Issues code.steps.toArray ctx' id index s' c

/-- The call comes up in an analysis: in a query, or in the body of a call that is followed. -/
inductive Occurs (ctx : Context) : MethodCall → Prop
  | resolveCode {m : Memory} {code : Code} {scope : Scope} {c : MethodCall} (asked : Asked ctx m)
      (depth : c.depth = ctx.options.maxCallDepth - m.stack.length)
      (raised : Raises ctx code scope (ctx.symbols.scopeVariables scope) m c) : Occurs ctx c
  | resolveMethod {m m' : Memory} {id : Nat} {code : Code} {c : MethodCall} (asked : Asked ctx m)
      (body : (Analysis.body ctx.symbols id).run m = (some code, m'))
      (depth : c.depth = ctx.options.maxCallDepth -
        (m'.push (Analysis.openCall ctx.symbols id)).stack.length)
      (raised : Raises ctx code ⟨some id, (ctx.symbols.method id).owner⟩
        (ctx.symbols.scopeVariables ⟨some id, (ctx.symbols.method id).owner⟩)
        (m'.push (Analysis.openCall ctx.symbols id)) c) : Occurs ctx c
  | nested {outer c : MethodCall} {m' : Memory} {code : Code} (occurs : Occurs ctx outer)
      (depth : outer.depth = c.depth + 1) (unknown : outer.memory.find? outer.key = none)
      (entered : outer.key.call ∉ outer.memory.stack)
      (body : (Analysis.body outer.ctx.symbols outer.id).run outer.memory = (some code, m'))
      (raised : Raises outer.ctx code outer.scope outer.locals (m'.push outer.key.call) c) :
      Occurs ctx c

/-! ### In sound memories -/

section Occurs

variable {t : SymbolTable} {K : Value → Prop} {T : Ty → Prop} {ctx : Context} {m : Memory}

theorem Asked.sound (closed : Value.ClosedAnywhere ctx.symbols K T) (h : Asked ctx m) :
    m.Sound ctx.symbols K := by
  have anywhere (scope : Scope) (owner : Nat) (_ : scope.owner = some owner) :
      T (ctx.symbols.instanceType owner) := closed.instances owner
  have closed := closed.toClosed
  induction h with
  | start => exact Memory.sound_empty _ _
  | body id _ ih => exact (Analysis.body_yields id ih).2
  | resolveMethod id _ ih => exact (Analysis.resolveMethod_yields closed rfl id ih).2
  | returnType id _ ih => exact (Analysis.returnType_yields closed rfl id ih).2
  | typeAt id span _ ih => exact (Analysis.typeAt_yields closed rfl id span ih).2
  | resolveCode code scope _ ih =>
    exact (Analysis.resolveCode_yields closed rfl code (anywhere scope) ih).2
  | typeOfExpression e scope _ ih =>
    exact (Analysis.typeOfExpression_yields closed rfl e (anywhere scope) ih).2

theorem Leads.sound {invoke : Invoke} {steps : Array Step} {task task' : Task} {s s' : State}
    (h : Leads invoke steps task s task' s') (closed : Value.Closed t K T)
    (calls : Invoke.Sound t K invoke) (sound : State.Sound t K s) (fits : task.Sound t K) :
    State.Sound t K s' ∧ task'.Sound t K := by
  induction h with
  | here => exact ⟨sound, fits⟩
  | onward done goes _ ih =>
    obtain ⟨only, sound⟩ := step_yields closed calls fits steps _ sound done
    exact ih sound (only.sound fits goes)
  | first _ ih => exact ih sound fits
  | later before _ ih => exact ih (before.sound closed calls sound fits) fits
  | eachFirst bound _ ih =>
    exact ih (sound_each closed (fits.2 _ List.mem_cons_self) sound bound) fits.1
  | eachLater bound before _ ih =>
    have made := sound_each closed (fits.2 _ List.mem_cons_self) sound bound
    refine ih (before.sound closed calls made fits.1) ⟨fits.1, ?_⟩
    exact fun v hv => fits.2 v (List.mem_cons_of_mem _ hv)

/-- A call that is made with values of the kind `K` in a sound memory. -/
structure MethodCall.Sound (t : SymbolTable) (K : Value → Prop) (c : MethodCall) : Prop where
  symbols : c.ctx.symbols = t
  receiver : ∀ r, c.receiver = some r → K r
  arguments : ∀ v ∈ c.arguments, K v
  memory : c.memory.Sound t K

theorem Issues.sound {steps : Array Step} {id index : Nat} {s : State} {c : MethodCall}
    (h : Issues steps ctx id index s c) (closed : Value.Closed t K T) (symbols : ctx.symbols = t)
    (sound : State.Sound t K s) : c.Sound t K := by
  obtain ⟨_, callee, arguments, v, s₀, s₁, s₂, -, arrived, read, reads, entered, requested⟩ := h
  obtain ⟨-, sound⟩ := arrive_yields index sound arrived
  obtain ⟨hv, sound⟩ := operand_yields closed callee sound read
  obtain ⟨hargs, sound⟩ := yields_mapM (fun slot _ => operand_yields closed slot) sound reads
  have table : c.ctx.symbols = t := entered ▸ symbols
  obtain ⟨hr, sound⟩ := Analysis.request_yields closed table hv c.arguments c.span sound.memory
  rw [requested] at hr sound
  exact ⟨table, hr, hargs, sound⟩

theorem Raises.sound {code : Code} {scope : Scope} {locals : List (String × Value)}
    {c : MethodCall} (h : Raises ctx code scope locals m c) (closed : Value.Closed t K T)
    (symbols : ctx.symbols = t) (only : ∀ p ∈ locals, K p.2) (sound : m.Sound t K) :
    c.Sound t K := by
  obtain ⟨s, ctx', id, index, s', opened, leads, issues⟩ := h
  obtain ⟨sound, symbols⟩ := leads.sound closed (Analysis.invoke_yields closed c.depth)
    (Analysis.openRoot_sound closed only sound opened) symbols
  exact issues.sound closed symbols sound

/-- Every call of an analysis is made, in a sound memory, with values of any kind that the analysis
keeps to. -/
theorem Occurs.sound (closed : Value.ClosedAnywhere ctx.symbols K T) {c : MethodCall}
    (h : Occurs ctx c) : c.Sound ctx.symbols K := by
  induction h with
  | resolveCode asked _ raised =>
    exact raised.sound closed.toClosed rfl (Analysis.only_scopeVariables closed _)
      (asked.sound closed)
  | @resolveMethod m m' id code c asked body _ raised =>
    have entered := (Analysis.body_yields id (asked.sound closed)).2
    rw [body] at entered
    exact raised.sound closed.toClosed rfl (Analysis.only_scopeVariables closed _) (entered.push _)
  | @nested outer c m' code _ _ _ _ body raised ih =>
    have entered := (Analysis.body_yields outer.id (ih.symbols ▸ ih.memory)).2
    rw [body] at entered
    refine raised.sound closed.toClosed ih.symbols ?_ (ih.symbols ▸ entered.push _)
    exact Analysis.only_entryVariables (ih.symbols ▸ closed.toClosed) _ ih.receiver ih.arguments

end Occurs

/-! ## What a call hands back -/

namespace Analysis

/-- `y` gives what `V` says, whatever is remembered before it. -/
def Always {α : Type} (V : α → Prop) (y : Analysis α) : Prop := ∀ m, V (y.run m).1

section Always

variable {α β : Type} {V : α → Prop} {W : β → Prop}

theorem always_pure {v : α} (h : V v) : Always V (pure v) := fun _ => h

theorem always_bind {y : Analysis α} {f : α → Analysis β} (hy : Always V y)
    (hf : ∀ v, V v → Always W (f v)) : Always W (y >>= f) := fun m => by
  rw [StateT.run_bind]
  exact hf _ (hy m) _

theorem always_then {y : Analysis α} {f : α → Analysis β} (hf : ∀ v, Always W (f v)) :
    Always W (y >>= f) := always_bind (V := fun _ => True) (fun _ => trivial) fun v _ => hf v

theorem always_mapM {γ : Type} {f : γ → Analysis α} {xs : List γ}
    (h : ∀ x ∈ xs, Always V (f x)) : Always (fun vs => ∀ v ∈ vs, V v) (xs.mapM f) := by
  induction xs with
  | nil => exact always_pure nofun
  | cons x rest ih =>
    rw [List.mapM_cons]
    refine always_bind (h x List.mem_cons_self) fun v hv => ?_
    refine always_bind (ih fun y hy => h y (List.mem_cons_of_mem _ hy)) fun vs hvs => ?_
    exact always_pure (List.forall_mem_cons.2 ⟨hv, hvs⟩)

end Always

section Returns

variable {m : Method}

theorem fresh_returns {v : Value} (h : m.Returns v) : Always m.Returns (fresh v) :=
  fun memory type declares => by
    show (v.place memory.nextLabel).1.type.isAssignableTo type = true
    rw [Value.place_type]
    exact h type declares

/-- One value of the declared type, which stands for all results. -/
theorem declared_returns (m : Method) :
    Always (fun values => ∀ v ∈ values, m.Returns v) (do return [← fresh (declared m)]) :=
  always_bind (fresh_returns (returns_declared m)) fun _ hv =>
    always_pure fun _ hu => List.mem_singleton.1 hu ▸ hv

theorem cutOff_returns (t : SymbolTable) (id : Nat) (span : Span) :
    Always (fun values => ∀ v ∈ values, (t.method id).Returns v) (cutOff t id span) :=
  always_then fun _ => always_then fun _ => declared_returns _

theorem leave_returns (t : SymbolTable) (id : Nat) (receiver : Option Value)
    (arguments : List Value) (cutoffs : Nat) (r : Resolution) :
    Always (fun values => ∀ v ∈ values, (t.method id).Returns v)
      (leave t id receiver arguments cutoffs r) := by
  refine always_then fun _ => ?_
  refine always_bind (always_mapM fun v hv => fresh_returns (returns_resultsOf _ r v hv))
    fun values hvs => always_then fun m => ?_
  dsimp only
  split
  · exact always_then fun _ => always_pure hvs
  · exact always_pure hvs

theorem follow_returns (deeper : Invoke) (ctx : Context) (id : Nat) (receiver : Option Value)
    (arguments : List Value) :
    Always (fun values => ∀ v ∈ values, (ctx.symbols.method id).Returns v)
      (follow deeper ctx id receiver arguments) := by
  refine always_then fun code? => ?_
  split
  · exact declared_returns _
  · exact always_then fun _ => always_then fun _ => always_then fun r =>
      leave_returns ctx.symbols id receiver arguments _ r

/-- Whatever a method is called with, what the call hands back fits what the method declares. -/
theorem invoke_returns {t : SymbolTable} {K : Value → Prop} {memory : Memory}
    (sound : memory.Sound t K) (depth : Nat) {ctx : Context} (symbols : ctx.symbols = t)
    (id : Nat) (receiver : Option Value) (arguments : List Value) (span : Span) :
    ∀ v ∈ ((invoke depth ctx id receiver arguments span).run memory).1,
      (t.method id).Returns v := by
  subst symbols
  cases kept : memory.find? (.of ctx.symbols id receiver arguments) with
  | some values =>
    rw [invoke_of_kept kept]
    exact fun v hv => (sound.kept _ values kept v hv).2
  | none =>
    cases depth with
    | zero =>
      rw [invoke_zero kept]
      exact cutOff_returns ctx.symbols id span memory
    | succ depth =>
      rw [invoke, invokeWith, run_bind_of_eq (x := get) rfl]
      dsimp only
      rw [kept]
      dsimp only
      split
      · exact cutOff_returns ctx.symbols id span memory
      · exact follow_returns (invoke depth) ctx id receiver arguments memory

end Returns

end Analysis

/-! ## At the entry of a body -/

theorem Param.bound_type {p : Param} (single : p.variadic = false) (argument : Option Value) :
    (p.bound argument).type.isAssignableTo p.type = true := by
  have declared : (Value.ofType p.type).type.isAssignableTo p.type = true :=
    p.type.isAssignableTo_self
  unfold Param.bound
  rw [single, if_neg Bool.false_ne_true]
  split
  · split
    · next fits => rwa [Value.copy_type]
    · exact declared
  · split
    · assumption
    · exact declared
  · exact declared

section Entry

variable {s s' : State} {scope : Scope} {name : String} {v : Value}

/-- The only branch is a root, on which `locals` is bound. -/
def RootWith (locals : Assoc String Value) (a : Arena) : Prop :=
  ∃ b scope, a.branch? 0 = some b ∧ b.parent = .root scope ∧ b.locals = locals

theorem RootWith.lookupVariable {locals : Assoc String Value} {a : Arena}
    (h : RootWith locals a) (name : String) :
    a.lookupVariable 0 name = Assoc.find? locals name := by
  obtain ⟨b, scope, found, parent, rfl⟩ := h
  have alone : a.lineage 0 = [b] := by
    rw [Arena.lineage, show a.branches[0]? = some b from found]
    simp only [parent]
  rw [Arena.lookupVariable_eq alone name, List.findSome?_nil, Option.or_none]

theorem RootWith.bindVariable {locals : Assoc String Value} {u : Unit} (h : RootWith locals s.1)
    (bound : Gives (Walk.bindVariable 0 name v) s u s') :
    RootWith (Assoc.insert locals name (v.place s.2.nextLabel).1) s'.1 := by
  obtain ⟨w, s₁, made, bound⟩ := gives_bind_iff.1 bound
  obtain ⟨rfl, rfl⟩ := gives_lift_iff.1 made
  obtain rfl := gives_modify_iff.1 bound
  obtain ⟨b, scope, found, parent, rfl⟩ := h
  refine ⟨b.bindVariable name (v.place s.2.nextLabel).1, scope, ?_, parent, rfl⟩
  rw [Arena.branch?_modify, if_pos rfl, found]
  rfl

/-- What is bound to other names does not change what a name stands for. -/
theorem RootWith.bindOthers {locals : Assoc String Value} {after : List (String × Value)}
    {u : Unit} (h : RootWith locals s.1) (others : ∀ p ∈ after, p.1 ≠ name)
    (bound : Gives (after.forM fun (name, v) => Walk.bindVariable 0 name v) s u s') :
    ∃ locals', RootWith locals' s'.1 ∧ Assoc.find? locals' name = Assoc.find? locals name := by
  induction after generalizing s locals with
  | nil =>
    obtain ⟨-, rfl⟩ := gives_pure_iff.1 bound
    exact ⟨locals, h, rfl⟩
  | cons p rest ih =>
    obtain ⟨other, others⟩ := List.forall_mem_cons.1 others
    obtain ⟨_, s₁, first, bound⟩ := gives_bind_iff.1 bound
    obtain ⟨locals', root, same⟩ := ih (h.bindVariable first) others bound
    exact ⟨locals', root, same.trans (Assoc.find?_insert_of_ne _ _ other)⟩

theorem RootWith.bindAll {locals : Assoc String Value} {before after : List (String × Value)}
    {u : Unit} (h : RootWith locals s.1) (others : ∀ p ∈ after, p.1 ≠ name)
    (bound : Gives ((before ++ (name, v) :: after).forM fun (name, v) =>
      Walk.bindVariable 0 name v) s u s') :
    ∃ next, s'.1.lookupVariable 0 name = some (v.place next).1 := by
  induction before generalizing s locals with
  | nil =>
    obtain ⟨_, s₁, first, bound⟩ := gives_bind_iff.1 bound
    obtain ⟨locals', root, same⟩ := (h.bindVariable first).bindOthers others bound
    refine ⟨s.2.nextLabel, ?_⟩
    rw [root.lookupVariable, same, Assoc.find?_insert_self]
  | cons p rest ih =>
    obtain ⟨_, s₁, first, bound⟩ := gives_bind_iff.1 bound
    exact ih (h.bindVariable first) bound

/-- The last value that is bound to a name is what the name stands for when the code starts. -/
theorem lookupVariable_openRoot {m : Memory} {before after : List (String × Value)}
    (others : ∀ p ∈ after, p.1 ≠ name)
    (opened : Gives (openRoot scope (before ++ (name, v) :: after)) (.empty, m) () s) :
    ∃ next, s.1.lookupVariable 0 name = some (v.place next).1 := by
  obtain ⟨_, s₁, planted, bound⟩ := gives_bind_iff.1 opened
  obtain rfl := gives_modify_iff.1 planted
  have root : RootWith [] (Arena.empty.root scope) := ⟨_, scope, rfl, rfl, rfl⟩
  exact root.bindAll others bound

/-- A parameter that takes one argument, and whose name no later one takes, starts with a value of
its declared type, whatever the method is called with. -/
theorem lookupVariable_entry {t : SymbolTable} {method : Method} {receiver : Option Value}
    {arguments : List Value} {m : Memory} {i : Nat} {p : Param}
    (named : ∀ q ∈ method.params, q.name ≠ Keyword.self.text)
    (found : method.params[i]? = some p) (single : p.variadic = false)
    (last : ∀ j q, i < j → method.params[j]? = some q → q.name ≠ p.name)
    (opened : Gives (openRoot scope (t.entryVariables method receiver arguments))
      (.empty, m) () s) :
    ∃ v, s.1.lookupVariable 0 p.name = some v ∧ v.type.isAssignableTo p.type = true := by
  have inside : (boundParams method.params arguments)[i]? =
      some (p.name, p.bound arguments[i]?) := by
    simp only [boundParams, List.getElem?_map, List.getElem?_zipIdx, found, Option.map_some,
      Nat.zero_add]
  have split : boundParams method.params arguments =
      (boundParams method.params arguments).take i ++ (p.name, p.bound arguments[i]?) ::
        (boundParams method.params arguments).drop (i + 1) := by
    obtain ⟨bounds, here⟩ := List.getElem?_eq_some_iff.1 inside
    rw [← here, ← List.drop_eq_getElem_cons bounds, List.take_append_drop]
  unfold SymbolTable.entryVariables at opened
  rw [split, List.append_assoc, List.cons_append] at opened
  have others : ∀ q ∈ (boundParams method.params arguments).drop (i + 1) ++
      ((t.receiver? method receiver).map fun r => (Keyword.self.text, r)).toList, q.1 ≠ p.name := by
    intro q hq
    rcases List.mem_append.1 hq with later | self
    · obtain ⟨k, at_⟩ := List.mem_iff_getElem?.1 later
      rw [List.getElem?_drop] at at_
      have name := congrArg (Option.map Prod.fst) at_
      rw [← List.getElem?_map, boundParams_names, List.getElem?_map] at name
      obtain ⟨r, there, same⟩ := Option.map_eq_some_iff.1 name
      rw [← same]
      exact last _ r (by omega) there
    · obtain ⟨_, -, rfl⟩ := Option.map_eq_some_iff.1 (Option.mem_toList.1 self)
      exact fun same => named p (List.mem_of_getElem? found) same.symm
  obtain ⟨next, look⟩ := lookupVariable_openRoot others opened
  refine ⟨_, look, ?_⟩
  rw [Value.place_type]
  exact p.bound_type single _

end Entry

/-! ## What a method is said to return -/

theorem Resolution.Bears.returnValues_ne_nil {r : Resolution} {scope : Scope}
    (h : r.Bears scope) : r.returnValues ≠ [] := by
  obtain ⟨id, rest, ends⟩ := List.exists_cons_of_ne_nil h.nonempty
  have mine : id ∈ r.terminals := ends ▸ List.mem_cons_self
  obtain ⟨b, found⟩ := Arena.exists_branch (h.inside id mine)
  obtain ⟨v, returned⟩ := Option.isSome_iff_exists.1 ((h.returned id b found).1 mine)
  have ended : b ∈ r.ends := List.mem_filterMap.2 ⟨id, mine, found⟩
  unfold Resolution.returnValues Resolution.returnsOf
  split
  · exact List.ne_nil_of_mem (List.mem_filterMap.2 ⟨b, ended, returned⟩)
  · next some_ => exact some_

theorem returnType_of_declared {ctx : Context} {m : Memory} (simple : ctx.symbols.Simple)
    (asked : Asked ctx m) {id : Nat} {code : Code} {type : Ty}
    (lowers : (ctx.symbols.method id).decl.toCode = .ok code)
    (declares : (ctx.symbols.method id).returns = some type) (known : type ≠ .any) :
    ((Analysis.returnType ctx id).run m).1 = type := by
  have closed := Value.closed_canonical simple
  have sound := asked.sound closed
  have bears := Analysis.resolveMethod_bears sound.faithful lowers
  have canonical := (Analysis.resolveMethod_yields closed.toClosed rfl id sound).1
  have plain : type.Plain := ⟨known, (simple.method id).2 type declares⟩
  cases out : (Analysis.resolveMethod ctx id).run m with
  | mk r m' =>
  rw [out] at bears canonical
  have ended : ¬ r.terminals.isEmpty = true := fun none_ =>
    bears.nonempty (List.isEmpty_iff.1 none_)
  rw [Analysis.returnType, Analysis.run_bind_of_eq out]
  dsimp only
  rw [if_neg ended, declares]
  show Ty.join _ = type
  refine Ty.join_of_all_eq ?_ plain fun u hu => ?_
  · exact fun none_left => bears.returnValues_ne_nil (List.map_eq_nil_iff.1 none_left)
  · obtain ⟨v, hv, rfl⟩ := List.mem_map.1 hu
    refine Ty.eq_of_isAssignableTo ?_ plain (Value.coerce_type type v)
    have coerced := closed.coerce (Analysis.only_returnValues canonical v hv)
      (closed.returns id)
    rw [declares] at coerced
    exact coerced.type

/-! ## Modules -/

/-- The parameters of a method of a module are named by the text. -/
theorem SymbolTable.mem_params_ofModule {m : Module} {id : Nat} {p : Param}
    (h : p ∈ ((SymbolTable.ofModule m).1.method id).params) :
    ∃ f ∈ m.functions, ∃ q ∈ f.2.parameters, p.name = q.name := by
  unfold SymbolTable.method at h
  cases found : (SymbolTable.ofModule m).1.methods[id]? with
  | none => rw [found] at h; cases h
  | some x =>
    rw [found] at h
    have filed := (Filing.files_ofModule m).methods x (List.mem_of_getElem? found)
    obtain ⟨t, owner, f, hf, rfl⟩ := filed
    obtain ⟨q, hq, rfl⟩ := List.mem_map.1 h
    exact ⟨f, hf, q, hq, rfl⟩

theorem Compilation.exists_module {options : AnalysisOptions} {text : String} {c : Compilation}
    (built : Compilation.ofText options text = .ok c) :
    ∃ module read, Module.ofText text = .ok (module, read) ∧
      c = Compilation.ofModule options module read := by
  unfold Compilation.ofText at built
  cases parsed : Module.ofText text with
  | error f => rw [parsed] at built; cases built
  | ok found =>
    rw [parsed] at built
    exact ⟨found.1, found.2, rfl, (Except.ok.inj built).symm⟩

/-- No parameter of a method of a module has the name of a keyword. -/
theorem Compilation.parameter_name_ne {options : AnalysisOptions} {text : String} {c : Compilation}
    (built : Compilation.ofText options text = .ok c) (k : Keyword) (id : Nat) :
    ∀ p ∈ (c.symbols.method id).params, p.name ≠ k.text := by
  obtain ⟨module, read, parsed, rfl⟩ := Compilation.exists_module built
  intro p hp
  obtain ⟨f, hf, q, hq, same⟩ := SymbolTable.mem_params_ofModule hp
  rw [same]
  exact Module.parameter_name_ne parsed k f hf q hq

theorem Compilation.simple {options : AnalysisOptions} {text : String} {c : Compilation}
    (built : Compilation.ofText options text = .ok c) : c.symbols.Simple := by
  obtain ⟨module, read, -, rfl⟩ := Compilation.exists_module built
  exact SymbolTable.simple_ofModule module

/-- Whatever a method is called with, and in whatever memory its body is entered, each parameter
that takes one argument, and whose name no later one takes, starts with a value of its declared
type.  Wherever in an analysis it is called, and with whatever, each value that the call hands back
is of the type that the method declares to return; so a query for what it returns answers with that
type, unless it is `any`. -/
theorem annotations_hold {options : AnalysisOptions} {text : String} {c : Compilation}
    (built : Compilation.ofText options text = .ok c) :
    let t := c.symbols
    let ctx := Context.outer t options
    (∀ (id : Nat) (receiver : Option Value) arguments scope m, ∃ s,
      Gives (openRoot scope (t.entryVariables (t.method id) receiver arguments)) (.empty, m) () s ∧
        ∀ (i : Nat) (p : Param), (t.method id).params[i]? = some p → p.variadic = false →
          (∀ (j : Nat) (q : Param), i < j → (t.method id).params[j]? = some q → q.name ≠ p.name) →
            ∃ v, s.1.lookupVariable 0 p.name = some v ∧ v.type.isAssignableTo p.type = true) ∧
      (∀ call, Occurs ctx call → ∀ id receiver arguments span, ∀ v ∈
        ((Analysis.invoke call.depth call.ctx id receiver arguments span).run call.memory).1,
          (t.method id).Returns v) ∧
        ∀ m id code type, Asked ctx m → (t.method id).decl.toCode = .ok code →
          (t.method id).returns = some type → type ≠ .any →
            ((Analysis.returnType ctx id).run m).1 = type := by
  intro t ctx
  have simple : t.Simple := Compilation.simple built
  refine ⟨fun id receiver arguments scope m => ?_,
    fun call occurs id receiver arguments span => ?_,
    fun m id code type asked lowers declares known => ?_⟩
  · obtain ⟨_, s, opened⟩ :=
      gives_some (openRoot scope (t.entryVariables (t.method id) receiver arguments)) (.empty, m)
    have named := Compilation.parameter_name_ne built .self id
    exact ⟨s, opened, fun i p found single last =>
      lookupVariable_entry named found single last opened⟩
  · have sound := occurs.sound (Value.closed_canonical simple)
    exact Analysis.invoke_returns sound.memory call.depth sound.symbols id receiver arguments span
  · exact returnType_of_declared simple asked lowers declares known

/-! ### A call with an argument of another type -/

/-- A function that returns its parameter, against both of its annotations. -/
def mistakenText : String := "fn f(x: Number) -> String \x7b return x \x7d\n"

def mistaken : Compilation := ((Compilation.ofText .standard mistakenText).toOption).getD default

/-- `f("s")`, as code of its own. -/
def mistakenCode : Code :=
  .ofInstrs [.const 0 (.string "s"), .load 1 "f", .call 2 1 [0], .ret (some 2)]

theorem exists_ok {ε α : Type} {x : Except ε α} (h : x.toOption.isSome = true) :
    ∃ v, x = .ok v := by
  cases x with
  | error _ => cases h
  | ok v => exact ⟨v, rfl⟩

theorem eq_ok_of_isSome {ε α : Type} [Inhabited α] {x : Except ε α}
    (h : x.toOption.isSome = true) : x = .ok (x.toOption.getD default) := by
  obtain ⟨v, rfl⟩ := exists_ok h
  rfl

/-- What `x` gives from `s` on, and what it leaves behind. -/
def outcome {α : Type} (x : Walk α) (s : State) : α × State :=
  let r := (x.run s.1).run s.2
  (r.1.1, (r.1.2, r.2))

theorem gives_outcome {α : Type} (x : Walk α) (s : State) :
    Gives x s (outcome x s).1 (outcome x s).2 := rfl

/-- Where a path goes on, if that is on its branch. -/
def Next.index? : Next → Option Nat
  | next index => some index
  | _ => none

theorem Next.eq_next_of_index? {next : Next} {index : Nat} (h : next.index? = some index) :
    next = .next index := by
  cases next with
  | next i => exact congrArg Next.next (Option.some.inj h)
  | _ => cases h

/-- The method that has to be entered, if one has to. -/
def Analysis.Request.entered? : Request → Option Nat
  | enter id _ => some id
  | answered _ => none

theorem Analysis.Request.eq_enter_of_entered? {request : Request} {id : Nat}
    (h : request.entered? = some id) : ∃ receiver, request = .enter id receiver := by
  cases request with
  | answered _ => cases h
  | enter id receiver =>
    cases h
    exact ⟨receiver, rfl⟩

/-- The call of the function, with a string for its number. -/
theorem occurs_mistaken : ∃ call, Occurs (.outer mistaken.symbols .standard) call ∧
    call.id = 0 ∧ call.arguments.map Value.type = [.string] := by
  let ctx := Context.outer mistaken.symbols .standard
  let steps := mistakenCode.steps.toArray
  let depth := ctx.options.maxCallDepth - Memory.empty.stack.length
  let s₀ := (outcome (openRoot .module []) (.empty, .empty)).2
  let s₁ := (outcome (step (Analysis.invoke depth) ctx steps 0 0) s₀).2
  let s₂ := (outcome (step (Analysis.invoke depth) ctx steps 0 1) s₁).2
  let s₃ := (outcome (arrive 0 2) s₂).2
  let callee := outcome (operand 0 default 1) s₃
  let arguments := outcome ([0].mapM (operand 0 default)) callee.2
  let request := (Analysis.request (ctx.enter arguments.2.1) callee.1 arguments.1 default).run
    arguments.2.2
  obtain ⟨first, second, new, entered, strings⟩ :
      (outcome (step (Analysis.invoke depth) ctx steps 0 0) s₀).1.index? = some 1 ∧
        (outcome (step (Analysis.invoke depth) ctx steps 0 1) s₁).1.index? = some 2 ∧
        (outcome (arrive 0 2) s₂).1 = true ∧ request.1.entered? = some 0 ∧
          arguments.1.map Value.type = [.string] := by
    decide +kernel
  obtain ⟨receiver, requested⟩ := Analysis.Request.eq_enter_of_entered? entered
  let call : MethodCall :=
    ⟨depth, ctx.enter arguments.2.1, 0, receiver, arguments.1, default, request.2⟩
  have issues : Issues steps ctx 0 2 s₂ call :=
    ⟨2, 1, [0], callee.1, s₃, callee.2, arguments.2, rfl, new ▸ gives_outcome _ _, rfl, rfl, rfl,
      Prod.ext requested rfl⟩
  have leads : Leads (Analysis.invoke depth) steps (.path ctx 0 0) s₀ (.path ctx 0 2) s₂ :=
    .onward (Next.eq_next_of_index? first ▸ gives_outcome _ _) rfl
      (.onward (Next.eq_next_of_index? second ▸ gives_outcome _ _) rfl .here)
  have raised : Raises ctx mistakenCode .module (ctx.symbols.scopeVariables .module) .empty call :=
    ⟨s₀, ctx, 0, 2, s₂, rfl, leads, issues⟩
  exact ⟨call, .resolveCode .start rfl raised, rfl, strings⟩

/-- The parameter starts with a number, the call gives strings, and the function is said to return
a string. -/
theorem annotations_hold_mistaken :
    let t := mistaken.symbols
    let ctx := Context.outer t .standard
    Compilation.ofText .standard mistakenText = .ok mistaken ∧
      ∃ call, Occurs ctx call ∧ call.id = 0 ∧ call.arguments.map Value.type = [.string] ∧
        (∃ s v, Gives (openRoot call.scope
          (t.entryVariables (t.method 0) call.receiver call.arguments)) (.empty, call.memory) () s ∧
            s.1.lookupVariable 0 "x" = some v ∧ v.type.isAssignableTo .number = true) ∧
        (∀ v ∈ ((Analysis.invoke call.depth call.ctx 0 call.receiver call.arguments call.span).run
          call.memory).1, (t.method 0).Returns v) ∧
        ((Analysis.returnType ctx 0).run .empty).1 = .string := by
  intro t ctx
  obtain ⟨read, known, coded, annotated⟩ :
      (Compilation.ofText .standard mistakenText).toOption.isSome = true ∧
        (t.method 0).params.map (fun p => (p.name, p.type, p.variadic)) =
          [("x", .number, false)] ∧
        (t.method 0).decl.toCode.toOption.isSome = true ∧
          (t.method 0).returns = some .string := by
    decide +kernel
  have built : Compilation.ofText .standard mistakenText = .ok mistaken := eq_ok_of_isSome read
  obtain ⟨entry, results, returns⟩ := annotations_hold built
  obtain ⟨call, occurs, called, strings⟩ := occurs_mistaken
  obtain ⟨s, opened, starts⟩ := entry 0 call.receiver call.arguments call.scope call.memory
  have param : ∃ p, (t.method 0).params = [p] ∧ p.name = "x" ∧ p.type = .number ∧
      p.variadic = false := by
    obtain ⟨p, only, same⟩ := List.map_eq_singleton_iff.1 known
    simp only [Prod.mk.injEq] at same
    exact ⟨p, only, same⟩
  obtain ⟨p, only, name, type, single⟩ := param
  obtain ⟨v, found, fits⟩ := starts 0 p (by rw [only]; rfl) single fun j q later there => by
    rw [only, List.getElem?_eq_none (by exact later)] at there
    cases there
  obtain ⟨code, lowers⟩ := exists_ok coded
  refine ⟨built, call, occurs, called, strings, ⟨s, v, opened, name ▸ found, type ▸ fits⟩,
    results call occurs 0 call.receiver call.arguments call.span, ?_⟩
  exact returns .empty 0 code .string .start lowers annotated nofun

end PathTyping
