import PathTyping.Proofs.Annotations

/-!
# Calls that are followed

What following a call comes to: its body is a walk, its results are what is left of that, and the
calls that come up under way are parts of it.  An analysis counts the calls that it cuts off, and
the count only grows.  So a call after which it is what it was before has not been cut off, and
neither has any call that has come up in it.

1. A call that is not kept and not being followed is followed (`invoke_of_new`); what is followed is
   a walk through the body (`follow_of_code`), whose results may be kept (`leave_run`).
2. What passes along walks passes from the beginning to a call that comes up, and from the call to
   the end (`Leads.inside`, `Issues.inside`).  What all calls keep that come up, the whole walk
   keeps (`Walks.keeps`), and it holds wherever a call comes up (`Raises.keeps`).
3. What all respects that a call does, calls respect (`Abides.passes`).
4. Calls that come up in a call that is not cut off are not cut off (`MethodCall.Enters.uncut`).
-/

namespace PathTyping

open Walk Analysis

/-- What is said of a memory says nothing about reports and labels. -/
structure Memory.Inert (M : Memory → Prop) : Prop where
  add : ∀ {m}, M m → ∀ d, M (m.add d)
  place : ∀ {m}, M m → ∀ v, M (m.place v).2

/-! ## Entering and leaving a body -/

namespace Analysis

section Bodies

variable {t : SymbolTable} {ctx : Context} {id : Nat} {m m' : Memory} {code : Code}

/-- A call of a method without code gives what is declared. -/
theorem follow_of_none (invoke : Invoke) (receiver : Option Value) (arguments : List Value)
    (h : (body ctx.symbols id).run m = (none, m')) :
    (follow invoke ctx id receiver arguments).run m =
      ([(m'.place (declared (ctx.symbols.method id))).1],
        (m'.place (declared (ctx.symbols.method id))).2) := by
  rw [follow, run_bind_of_eq h]
  rfl

/-- A call of a method with code is a resolution of it, and then leaves the body. -/
theorem follow_of_body (invoke : Invoke) (receiver : Option Value) (arguments : List Value)
    (h : (body ctx.symbols id).run m = (some code, m')) :
    (follow invoke ctx id receiver arguments).run m =
      let done := (resolve invoke ctx code ⟨some id, (ctx.symbols.method id).owner⟩
        (ctx.symbols.entryVariables (ctx.symbols.method id) receiver arguments)).run
          (m'.push (.of ctx.symbols id receiver arguments))
      (leave ctx.symbols id receiver arguments m'.cutoffs done.1).run done.2 := by
  rw [follow, run_bind_of_eq h]
  dsimp only
  rw [run_bind_of_eq (x := get) rfl, run_bind_of_eq (x := modify _) rfl, StateT.run_bind]
  rfl

/-- A call of a method with code is a walk through it. -/
theorem follow_of_code (invoke : Invoke) (receiver : Option Value) (arguments : List Value)
    (h : (body ctx.symbols id).run m = (some code, m')) :
    ∃ s ends s', Gives (openRoot ⟨some id, (ctx.symbols.method id).owner⟩
        (ctx.symbols.entryVariables (ctx.symbols.method id) receiver arguments))
        (.empty, m'.push (.of ctx.symbols id receiver arguments)) () s ∧
      Walks invoke code.steps.toArray (fun _ _ _ _ => True) (.path ctx 0 0) s ends s' ∧
      (follow invoke ctx id receiver arguments).run m =
        (leave ctx.symbols id receiver arguments m'.cutoffs ⟨s'.1, ends, code⟩).run s'.2 := by
  obtain ⟨s, ends, s', opened, walks, run⟩ := resolve_walks invoke ctx code
    ⟨some id, (ctx.symbols.method id).owner⟩
    (ctx.symbols.entryVariables (ctx.symbols.method id) receiver arguments)
    (m'.push (.of ctx.symbols id receiver arguments))
  refine ⟨s, ends, s', opened, walks, ?_⟩
  rw [follow_of_body _ _ _ h, run]

/-! ### Leaving -/

theorem mapM_fresh_inert {M : Memory → Prop} (inert : Memory.Inert M) (values : List Value)
    (h : M m) : M ((values.mapM fresh).run m).2 := by
  induction values generalizing m with
  | nil => exact h
  | cons v rest ih =>
    rw [List.mapM_cons]
    exact ih (inert.place h v)

theorem leave_run (t : SymbolTable) (id : Nat) (receiver : Option Value) (arguments : List Value)
    (cutoffs : Nat) (r : Resolution) (m : Memory) :
    ((leave t id receiver arguments cutoffs r).run m).1 =
        (((resultsOf (t.method id) r).mapM fresh).run m.pop).1 ∧
      (((leave t id receiver arguments cutoffs r).run m).2 =
          (((resultsOf (t.method id) r).mapM fresh).run m.pop).2 ∨
        ((leave t id receiver arguments cutoffs r).run m).2 =
          (((resultsOf (t.method id) r).mapM fresh).run m.pop).2.remember
            (.of t id receiver arguments)
            (((resultsOf (t.method id) r).mapM fresh).run m.pop).1) := by
  rcases out : ((resultsOf (t.method id) r).mapM fresh).run m.pop with ⟨values, m'⟩
  rw [leave, run_bind_of_eq (x := modify Memory.pop) rfl, run_bind_of_eq out,
    run_bind_of_eq (x := get) rfl]
  split
  · exact ⟨rfl, .inr rfl⟩
  · exact ⟨rfl, .inl rfl⟩

/-- A call that is neither kept nor being followed is followed. -/
theorem invoke_of_new {depth : Nat} {ctx : Context} {id : Nat} {receiver : Option Value}
    {arguments : List Value} {span : Span} {m : Memory}
    (unknown : m.find? (.of ctx.symbols id receiver arguments) = none)
    (entered : CallKey.of ctx.symbols id receiver arguments ∉ m.stack) :
    (invoke (depth + 1) ctx id receiver arguments span).run m =
      (follow (invoke depth) ctx id receiver arguments).run m := by
  rw [invoke, invokeWith, run_bind_of_eq (x := get) rfl]
  dsimp only
  rw [unknown]
  dsimp only
  rw [if_neg entered]

/-- A call that is being followed is cut off. -/
theorem invoke_of_entered {depth : Nat} {ctx : Context} {id : Nat} {receiver : Option Value}
    {arguments : List Value} {span : Span} {m : Memory}
    (unknown : m.find? (.of ctx.symbols id receiver arguments) = none)
    (entered : CallKey.of ctx.symbols id receiver arguments ∈ m.stack) :
    (invoke (depth + 1) ctx id receiver arguments span).run m =
      (cutOff ctx.symbols id span).run m := by
  rw [invoke, invokeWith, run_bind_of_eq (x := get) rfl]
  dsimp only
  rw [unknown]
  dsimp only
  rw [if_pos entered]

end Bodies

end Analysis


namespace MethodCall

/-- What is remembered after the call. -/
def after (c : MethodCall) : Memory :=
  ((Analysis.invoke c.depth c.ctx c.id c.receiver c.arguments c.span).run c.memory).2

/-- No call has been cut off. -/
def Uncut (c : MethodCall) : Prop := c.after.cutoffs = c.memory.cutoffs

/-- What is left of a call when its body has been resolved. -/
theorem follow_of_resolved {c : MethodCall} {invoke : Invoke} {code : Code} {m m' : Memory}
    {r : Resolution}
    (body : (Analysis.body c.ctx.symbols c.id).run c.memory = (some code, m))
    (resolved : (Analysis.resolve invoke c.ctx code c.scope c.locals).run (m.push c.key.call) =
      (r, m')) :
    (Analysis.follow invoke c.ctx c.id c.receiver c.arguments).run c.memory =
      (Analysis.leave c.ctx.symbols c.id c.receiver c.arguments m.cutoffs r).run m' := by
  have run := Analysis.follow_of_body invoke c.receiver c.arguments body
  dsimp only [scope, locals, key] at resolved
  dsimp only [MemoKey.of] at resolved
  rw [resolved] at run
  exact run

/-- In the body of a call that is followed, another call comes up. -/
structure Enters (outer c : MethodCall) : Prop where
  depth : outer.depth = c.depth + 1
  unknown : outer.memory.find? outer.key = none
  entered : outer.key.call ∉ outer.memory.stack
  raised : ∃ code m', (Analysis.body outer.ctx.symbols outer.id).run outer.memory =
    (some code, m') ∧ Raises outer.ctx code outer.scope outer.locals (m'.push outer.key.call) c

end MethodCall

/-! ## Within a walk -/

section Inside

variable {invoke : Invoke} {steps : Array Step} {P : Context → Nat → Nat → State → Prop}
  {Q : Memory → Memory → Prop} {ctx : Context} {id index : Nat} {s s' s₁ : State}
  {task task' : Task} {ends : List Nat}

/-- Where a walk comes to, it goes on, and the rest of it is walked behind. -/
theorem Leads.inside (passes : Passes invoke Q) (leads : Leads invoke steps task s task' s₁)
    (walks : Walks invoke steps P task s ends s') :
    Q s.2 s₁.2 ∧ ∃ ends' s₂, Walks invoke steps P task' s₁ ends' s₂ ∧ Q s₂.2 s'.2 := by
  induction leads generalizing ends s' with
  | here => exact ⟨passes.refl _, ends, s', walks, passes.refl _⟩
  | onward done goes _ ih =>
    cases walks with
    | onward _ done' goes' walks =>
      obtain ⟨rfl, rfl⟩ := done.unique done'
      cases goes.symm.trans goes'
      obtain ⟨before, rest⟩ := ih walks
      exact ⟨passes.trans (passes.step done) before, rest⟩
    | stop _ done' _ => cases (done.unique done').1; cases goes
  | first _ ih =>
    cases walks with
    | allCons walks later =>
      obtain ⟨before, ends', s₂, rest, behind⟩ := ih walks
      exact ⟨before, ends', s₂, rest, passes.trans behind (later.passes passes)⟩
  | later earlier _ ih =>
    cases walks with
    | allCons walks later =>
      obtain ⟨-, rfl⟩ := earlier.unique walks
      obtain ⟨before, rest⟩ := ih later
      exact ⟨passes.trans (earlier.passes passes) before, rest⟩
  | eachFirst bound _ ih =>
    cases walks with
    | eachCons bound' walks later =>
      obtain ⟨-, rfl⟩ := bound.unique bound'
      obtain ⟨before, ends', s₂, rest, behind⟩ := ih walks
      have made := (passes.admits _).bindSlot _ _ bound
      exact ⟨passes.trans made before, ends', s₂, rest,
        passes.trans behind (later.passes passes)⟩
  | eachLater bound earlier _ ih =>
    cases walks with
    | eachCons bound' walks later =>
      obtain ⟨-, rfl⟩ := bound.unique bound'
      obtain ⟨-, rfl⟩ := earlier.unique walks
      obtain ⟨before, rest⟩ := ih later
      have made := (passes.admits _).bindSlot _ _ bound
      exact ⟨passes.trans made (passes.trans (earlier.passes passes) before), rest⟩

theorem Leads.trans {task'' : Task} (h : Leads invoke steps task s task' s₁)
    (h' : Leads invoke steps task' s₁ task'' s') : Leads invoke steps task s task'' s' := by
  induction h with
  | here => exact h'
  | onward done goes _ ih => exact .onward done goes (ih h')
  | first _ ih => exact .first (ih h')
  | later before _ ih => exact .later before (ih h')
  | eachFirst bound _ ih => exact .eachFirst bound (ih h')
  | eachLater bound before _ ih => exact .eachLater bound before (ih h')

/-- Nothing is asked of what passes. -/
theorem passes_anything (invoke : Invoke) : Passes invoke fun _ _ => True :=
  ⟨fun _ => trivial, fun _ _ => trivial, fun _ _ => trivial, fun _ _ => trivial,
    fun _ _ _ _ _ _ => trivial⟩

/-- Where a walk comes to, the rest of it is walked. -/
theorem Leads.walks (leads : Leads invoke steps task s task' s₁)
    (walks : Walks invoke steps P task s ends s') :
    ∃ others s₂, Walks invoke steps P task' s₁ others s₂ := by
  obtain ⟨-, others, s₂, rest, -⟩ := leads.inside (passes_anything invoke) walks
  exact ⟨others, s₂, rest⟩

/-- What holds throughout a walk holds wherever it comes to. -/
theorem Leads.holds (leads : Leads invoke steps task s (.path ctx id index) s₁)
    (walks : Walks invoke steps P task s ends s') : P ctx id index s₁ := by
  obtain ⟨others, s₂, rest⟩ := leads.walks walks
  cases rest with
  | onward holds _ _ _ => exact holds
  | stop holds _ _ => exact holds

/-- What holds wherever a walk comes to holds throughout the walk. -/
theorem Walks.of_leads {R : Context → Nat → Nat → State → Prop}
    (h : Walks invoke steps R task s ends s')
    (holds : ∀ ctx id index s₁, Leads invoke steps task s (.path ctx id index) s₁ →
      P ctx id index s₁) : Walks invoke steps P task s ends s' := by
  suffices both : Walks invoke steps (fun _ _ _ _ => True) task s ends s' ∧
      ((∀ ctx id index s₁, Leads invoke steps task s (.path ctx id index) s₁ →
        P ctx id index s₁) → Walks invoke steps P task s ends s') from both.2 holds
  clear holds
  induction h with
  | onward _ done goes _ ih =>
    refine ⟨.onward trivial done goes ih.1, fun holds => ?_⟩
    refine .onward (holds _ _ _ _ .here) done goes (ih.2 fun ctx id index s₁ leads => ?_)
    exact holds ctx id index s₁ (.onward done goes leads)
  | stop _ done finished =>
    refine ⟨.stop trivial done finished, fun holds => ?_⟩
    exact .stop (holds _ _ _ _ .here) done finished
  | allNil => exact ⟨.allNil, fun _ => .allNil⟩
  | allCons _ _ ihFirst ihRest =>
    refine ⟨.allCons ihFirst.1 ihRest.1, fun holds => ?_⟩
    refine .allCons (ihFirst.2 fun ctx id index s₁ leads => ?_)
      (ihRest.2 fun ctx id index s₁ leads => ?_)
    · exact holds ctx id index s₁ (.first leads)
    · exact holds ctx id index s₁ (.later ihFirst.1 leads)
  | eachNil => exact ⟨.eachNil, fun _ => .eachNil⟩
  | eachCons bound _ _ ihFirst ihRest =>
    refine ⟨.eachCons bound ihFirst.1 ihRest.1, fun holds => ?_⟩
    refine .eachCons bound (ihFirst.2 fun ctx id index s₁ leads => ?_)
      (ihRest.2 fun ctx id index s₁ leads => ?_)
    · exact holds ctx id index s₁ (.eachFirst bound leads)
    · exact holds ctx id index s₁ (.eachLater bound ihFirst.1 leads)

/-- What surrounds the paths of the task. -/
def Task.context : Task → Context
  | .path ctx _ _ => ctx
  | .all ctx _ => ctx
  | .each ctx _ _ _ _ => ctx

/-- All paths of a walk are surrounded by one table, and held to the same limits. -/
theorem Leads.context (leads : Leads invoke steps task s task' s₁) :
    task'.context.symbols = task.context.symbols ∧
      task'.context.options = task.context.options := by
  induction leads with
  | here => exact ⟨rfl, rfl⟩
  | @onward _ _ _ next _ _ _ _ _ _ goes _ ih =>
    rw [ih.1, ih.2]
    cases next <;> cases goes <;> exact ⟨rfl, rfl⟩
  | first _ ih => exact ih
  | later _ _ ih => exact ih
  | eachFirst _ _ ih => exact ih
  | eachLater _ _ _ ih => exact ih

/-- Before a path makes a call, it reads the operands and asks what is called. -/
theorem Issues.before {c : MethodCall} (issues : Issues steps ctx id index s c)
    (passes : Passes invoke Q) : Q s.2 c.memory := by
  obtain ⟨_, callee, slots, v, s₀, s₁, s₂, -, arrived, read, reads, -, requested⟩ := issues
  have admits := passes.admits id
  have same : s₀.2 = s.2 := (congrArg Prod.snd arrived).symm
  have asked := admits.request c.ctx v c.arguments c.span s₂.1 s₂.2
  rw [requested] at asked
  rw [← same]
  exact passes.trans (admits.operand _ _ read) (passes.trans (admits.operands _ _ reads) asked)

/-- The call that a path makes is part of its step. -/
theorem Issues.inside {c : MethodCall} {next : Next} (issues : Issues steps ctx id index s c)
    (passes : Passes (Analysis.invoke c.depth) Q)
    (done : Gives (step (Analysis.invoke c.depth) ctx steps id index) s next s') :
    Q s.2 c.memory ∧ Q c.after s'.2 := by
  refine ⟨issues.before passes, ?_⟩
  obtain ⟨result, callee, slots, v, s₀, s₁, s₂, here, arrived, read, reads, entered, requested⟩ :=
    issues
  have admits := passes.admits id
  unfold step at done
  rw [here] at done
  obtain ⟨first, s₃, arrived', done⟩ := gives_bind_iff.1 done
  obtain ⟨rfl, rfl⟩ := arrived.unique arrived'
  obtain ⟨values, s₄, answered, done⟩ := gives_bind_iff.1 done
  obtain ⟨v', s₅, read', answered⟩ := gives_bind_iff.1 answered
  obtain ⟨rfl, rfl⟩ := read.unique read'
  obtain ⟨vs, s₆, reads', answered⟩ := gives_bind_iff.1 answered
  obtain ⟨rfl, rfl⟩ := reads.unique reads'
  obtain ⟨a, s₇, got, answered⟩ := gives_bind_iff.1 answered
  obtain ⟨rfl, rfl⟩ := gives_get_iff.1 got
  obtain ⟨rfl, rfl⟩ := gives_lift_iff.1 answered
  obtain ⟨s₈, behind, memory, -⟩ :=
    (@admits.continueWith _ _ _ ctx.options _ _ _) done
  rw [← entered, Analysis.call, run_bind_of_eq requested] at behind
  rw [memory]
  exact behind

end Inside

theorem Raises.context {ctx : Context} {code : Code} {scope : Scope}
    {locals : List (String × Value)} {m : Memory} {c : MethodCall}
    (raised : Raises ctx code scope locals m c) :
    c.ctx.symbols = ctx.symbols ∧ c.ctx.options = ctx.options := by
  obtain ⟨s, ctx', id, index, s₁, -, leads, issues⟩ := raised
  obtain ⟨_, _, _, _, _, _, _, _, _, _, _, surrounded, _⟩ := issues
  rw [surrounded]
  exact leads.context

/-! ## What calls that come up keep -/

section Keeps

variable {M : Memory → Prop} {depth : Nat} {steps : Array Step}
  {P : Context → Nat → Nat → State → Prop} {ctx : Context} {id index : Nat} {s s' s₀ s₁ : State}
  {task task' : Task} {ends : List Nat}

/-- Where no call is followed, only reports and labels are made. -/
theorem Memory.Inert.passes (inert : Memory.Inert M) :
    Passes (fun _ _ _ _ _ => pure []) fun m m' => M m → M m' where
  refl _ h := h
  trans h h' hm := h' (h hm)
  report _ d hm := inert.add hm d
  place _ v hm := inert.place hm v
  invoke _ _ _ _ _ _ hm := hm

/-- Whichever call comes up, `M` holds after it if it has held before. -/
def Spares (M : Memory → Prop) (depth : Nat) (steps : Array Step) (task : Task) (s : State) :
    Prop :=
  ∀ ctx id index s₁ (c : MethodCall),
    Leads (Analysis.invoke depth) steps task s (.path ctx id index) s₁ → c.depth = depth →
      Issues steps ctx id index s₁ c → M c.memory → M c.after

theorem results_keeps (inert : Memory.Inert M)
    (calls : ∀ c : MethodCall, c.depth = depth → Issues steps ctx id index s c → M c.memory →
      M c.after) {result callee : Slot} {arguments : List Slot} {span : Span}
    (here : steps[index]? = some ⟨.call result callee arguments, span⟩)
    (arrived : Gives (arrive id index) s true s₀) (h : M s₀.2) {values : List Value}
    (given : Gives (results (Analysis.invoke depth) ctx id span callee arguments) s₀ values s') :
    M s'.2 := by
  have admits := inert.passes.admits id
  obtain ⟨v, s₁, read, given⟩ := gives_bind_iff.1 given
  obtain ⟨vs, s₂, reads, given⟩ := gives_bind_iff.1 given
  obtain ⟨a, s₃, got, given⟩ := gives_bind_iff.1 given
  obtain ⟨rfl, rfl⟩ := gives_get_iff.1 got
  obtain ⟨rfl, rfl⟩ := gives_lift_iff.1 given
  have asked := admits.request (ctx.enter s₃.1) v vs span s₃.1 s₃.2
    (admits.operands _ _ reads (admits.operand _ _ read h))
  dsimp only
  rw [Analysis.call, StateT.run_bind]
  rcases out : (Analysis.request (ctx.enter s₃.1) v vs span).run s₃.2 with ⟨request, m⟩
  rw [out] at asked
  cases request with
  | answered answers => exact asked
  | enter method receiver =>
    exact calls ⟨depth, ctx.enter s₃.1, method, receiver, vs, span, m⟩ rfl
      ⟨result, callee, arguments, v, s₀, s₁, s₃, here, arrived, read, reads, rfl, out⟩ asked

theorem step_keeps (inert : Memory.Inert M)
    (calls : ∀ c : MethodCall, c.depth = depth → Issues steps ctx id index s c → M c.memory →
      M c.after) {next : Next}
    (done : Gives (step (Analysis.invoke depth) ctx steps id index) s next s') (h : M s.2) :
    M s'.2 := by
  have quiet (same : step (Analysis.invoke depth) ctx steps id index =
      step (fun _ _ _ _ _ => pure []) ctx steps id index) : M s'.2 :=
    inert.passes.step (same ▸ done) h
  cases here : steps[index]? with
  | none => exact quiet (by simp only [step, here])
  | some instruction =>
    obtain ⟨instr, span⟩ := instruction
    cases instr with
    | call result callee arguments =>
      have admits := inert.passes.admits id
      unfold step at done
      rw [here] at done
      obtain ⟨first, s₀, arrived, done⟩ := gives_bind_iff.1 done
      have same : s₀.2 = s.2 := (congrArg Prod.snd arrived).symm
      rw [← same] at h
      cases first with
      | false =>
        exact admits.seq admits.looks (fun _ => admits.seq (admits.reports _ _) fun _ =>
          admits.returns _) done h
      | true =>
        obtain ⟨values, s₁, answered, done⟩ := gives_bind_iff.1 done
        obtain ⟨s₂, behind, memory, -⟩ := (@admits.continueWith _ _ _ ctx.options _ _ _) done
        rw [memory]
        exact behind (results_keeps inert calls here arrived h answered)
    | ret value => exact quiet (by cases value <;> simp only [step, here, execute])
    | _ => exact quiet (by simp only [step, here, execute])

theorem Walks.keeps (inert : Memory.Inert M)
    (walks : Walks (Analysis.invoke depth) steps (fun _ _ _ _ => True) task s ends s')
    (calls : Spares M depth steps task s) (h : M s.2) : M s'.2 := by
  induction walks with
  | onward _ done goes _ ih =>
    refine ih (fun ctx id index s₁ c leads => calls ctx id index s₁ c (.onward done goes leads)) ?_
    exact step_keeps inert (fun c => calls _ _ _ _ c .here) done h
  | stop _ done finished =>
    exact inert.passes.finish finished (step_keeps inert (fun c => calls _ _ _ _ c .here) done h)
  | allNil => exact h
  | allCons walks _ first rest =>
    refine rest (fun ctx id index s₁ c leads =>
      calls ctx id index s₁ c (.later walks leads)) ?_
    exact first (fun ctx id index s₁ c leads => calls ctx id index s₁ c (.first leads)) h
  | eachNil => exact h
  | eachCons bound walks _ first rest =>
    refine rest (fun ctx id index s₁ c leads =>
      calls ctx id index s₁ c (.eachLater bound walks leads)) ?_
    refine first (fun ctx id index s₁ c leads =>
      calls ctx id index s₁ c (.eachFirst bound leads)) ?_
    exact (inert.passes.admits _).bindSlot _ _ bound h

theorem Analysis.openRoot_keeps (inert : Memory.Inert M) {scope : Scope}
    {locals : List (String × Value)} {s s' : State} (opened : Gives (openRoot scope locals) s () s')
    (h : M s.2) : M s'.2 := by
  obtain ⟨_, s₁, planted, bound⟩ := gives_bind_iff.1 opened
  obtain rfl := gives_modify_iff.1 planted
  exact (inert.passes.admits 0).bindAll locals bound h

/-- What all calls keep that come up in a resolution, the resolution keeps. -/
theorem Analysis.resolve_keeps (inert : Memory.Inert M) {ctx : Context} {code : Code}
    {scope : Scope} {locals : List (String × Value)} {depth : Nat} {m : Memory}
    (calls : ∀ c : MethodCall, c.depth = depth → Raises ctx code scope locals m c → M c.memory →
      M c.after) (h : M m) :
    M ((resolve (Analysis.invoke depth) ctx code scope locals).run m).2 := by
  obtain ⟨s, ends, s', opened, walks, run⟩ :=
    resolve_walks (Analysis.invoke depth) ctx code scope locals m
  rw [run]
  refine walks.keeps inert (fun ctx' id index s₁ c leads deep issues => ?_)
    (openRoot_keeps inert opened h)
  exact calls c deep ⟨s, ctx', id, index, s₁, opened, deep.symm ▸ leads, issues⟩

/-- What all calls keep that come up in a walk holds wherever the walk comes to. -/
theorem Leads.keeps (inert : Memory.Inert M)
    (leads : Leads (Analysis.invoke depth) steps task s task' s')
    (calls : Spares M depth steps task s) (h : M s.2) : M s'.2 := by
  induction leads with
  | here => exact h
  | onward done goes _ ih =>
    refine ih (fun ctx id index s₁ c leads => calls ctx id index s₁ c (.onward done goes leads)) ?_
    exact step_keeps inert (fun c => calls _ _ _ _ c .here) done h
  | first _ ih => exact ih (fun ctx id index s₁ c leads => calls ctx id index s₁ c (.first leads)) h
  | later before _ ih =>
    refine ih (fun ctx id index s₁ c leads => calls ctx id index s₁ c (.later before leads)) ?_
    exact before.keeps inert
      (fun ctx id index s₁ c leads => calls ctx id index s₁ c (.first leads)) h
  | eachFirst bound _ ih =>
    refine ih (fun ctx id index s₁ c leads => calls ctx id index s₁ c (.eachFirst bound leads)) ?_
    exact (inert.passes.admits _).bindSlot _ _ bound h
  | eachLater bound before _ ih =>
    refine ih (fun ctx id index s₁ c leads =>
      calls ctx id index s₁ c (.eachLater bound before leads)) ?_
    refine before.keeps inert (fun ctx id index s₁ c leads =>
      calls ctx id index s₁ c (.eachFirst bound leads)) ?_
    exact (inert.passes.admits _).bindSlot _ _ bound h

/-- What all calls keep that come up in a resolution holds when one of them is made. -/
theorem Raises.keeps (inert : Memory.Inert M) {ctx : Context} {code : Code} {scope : Scope}
    {locals : List (String × Value)} {m : Memory} {c : MethodCall}
    (raised : Raises ctx code scope locals m c)
    (calls : ∀ other : MethodCall, other.depth = c.depth → Raises ctx code scope locals m other →
      M other.memory → M other.after) (h : M m) : M c.memory := by
  obtain ⟨s, ctx', id, index, s₁, opened, leads, issues⟩ := raised
  have spares : Spares M c.depth code.steps.toArray (.path ctx 0 0) s :=
    fun ctx' id index s₁ other leads deep issues =>
      calls other deep ⟨s, ctx', id, index, s₁, opened, deep.symm ▸ leads, issues⟩
  exact issues.before inert.passes
    (leads.keeps inert spares (Analysis.openRoot_keeps inert opened h))

end Keeps

/-! ## What calls pass on -/

/-- All that a call does respects the relation: it reports and makes objects, counts what it cuts
off, keeps code, enters and leaves bodies, and keeps results where none were kept. -/
structure Abides (Q : Memory → Memory → Prop) : Prop where
  refl : ∀ m, Q m m
  trans : ∀ {m m' m''}, Q m m' → Q m' m'' → Q m m''
  report : ∀ m d, Q m (m.add d)
  place : ∀ m v, Q m (m.place v).2
  cut : ∀ m, Q m { m with cutoffs := m.cutoffs + 1 }
  body : ∀ t id m, Q m ((Analysis.body t id).run m).2
  enter : ∀ {m m' call}, Q (m.push call) m' → Q m m'.pop
  remember : ∀ {m m' key} (values), m.find? key = none → key.call ∉ m.stack → Q m m' →
    Q m (m'.remember key values)

namespace Abides

variable {Q : Memory → Memory → Prop} (abides : Abides Q) {deeper : Invoke}
include abides

theorem passes_of (h : ∀ ctx id receiver arguments span m,
      Q m ((deeper ctx id receiver arguments span).run m).2) : Passes deeper Q where
  refl := abides.refl
  trans := abides.trans
  report := abides.report
  place := abides.place
  invoke m ctx id receiver arguments span := h ctx id receiver arguments span m

theorem openRoot {scope : Scope} {locals : List (String × Value)} {s s' : Walk.State}
    (h : Gives (Walk.openRoot scope locals) s () s') : Q s.2 s'.2 := by
  have passes : Passes (fun _ _ _ _ _ => pure []) Q := abides.passes_of fun _ _ _ _ _ => abides.refl
  obtain ⟨_, s₁, planted, h⟩ := gives_bind_iff.1 h
  obtain rfl := gives_modify_iff.1 planted
  have kept := (passes.admits 0).bindAll locals h
  exact kept

theorem resolve (passes : Passes deeper Q) (ctx : Context) (code : Code) (scope : Scope)
    (locals : List (String × Value)) (m : Memory) :
    Q m ((Analysis.resolve deeper ctx code scope locals).run m).2 := by
  obtain ⟨s, ends, s', opened, walks, run⟩ := resolve_walks deeper ctx code scope locals m
  rw [run]
  exact abides.trans (abides.openRoot opened) (walks.passes passes)

theorem mapM_fresh (values : List Value) (m : Memory) :
    Q m ((values.mapM Analysis.fresh).run m).2 :=
  mapM_fresh_inert (M := Q m) ⟨fun h d => abides.trans h (abides.report _ d),
    fun h v => abides.trans h (abides.place _ v)⟩ values (abides.refl m)

theorem follow (passes : Passes deeper Q) {ctx : Context} {id : Nat} {receiver : Option Value}
    {arguments : List Value} {m : Memory}
    (unknown : m.find? (.of ctx.symbols id receiver arguments) = none)
    (entered : CallKey.of ctx.symbols id receiver arguments ∉ m.stack) :
    Q m ((Analysis.follow deeper ctx id receiver arguments).run m).2 := by
  have begun := abides.body ctx.symbols id m
  rcases out : (Analysis.body ctx.symbols id).run m with ⟨_ | code, m₁⟩
  · rw [out] at begun
    rw [follow_of_none _ _ _ out]
    exact abides.trans begun (abides.place m₁ (declared (ctx.symbols.method id)))
  · rw [out] at begun
    rw [follow_of_body _ _ _ out]
    have resolved := abides.resolve passes ctx code ⟨some id, (ctx.symbols.method id).owner⟩
      (ctx.symbols.entryVariables (ctx.symbols.method id) receiver arguments)
      (m₁.push (.of ctx.symbols id receiver arguments))
    dsimp only
    generalize (Analysis.resolve deeper ctx code ⟨some id, (ctx.symbols.method id).owner⟩
      (ctx.symbols.entryVariables (ctx.symbols.method id) receiver arguments)).run
        (m₁.push (.of ctx.symbols id receiver arguments)) = done at resolved
    have left := abides.trans (abides.trans begun (abides.enter resolved))
      (abides.mapM_fresh (resultsOf (ctx.symbols.method id) done.1) _)
    rcases (leave_run ctx.symbols id receiver arguments m₁.cutoffs done.1 done.2).2 with same | same
    · rw [same]
      exact left
    · rw [same]
      exact abides.remember _ unknown entered left

theorem cutOff (t : SymbolTable) (id : Nat) (span : Span) (m : Memory) :
    Q m ((Analysis.cutOff t id span).run m).2 :=
  abides.trans (abides.cut m) <|
    abides.trans (abides.report _ ((Finding.recursionCutoff (t.qualifiedName id)).diagnostic span))
      (abides.place _ (declared (t.method id)))

theorem invokeWith {deeper? : Option Invoke}
    (passes : ∀ deeper, deeper? = some deeper → Passes deeper Q) (ctx : Context) (id : Nat)
    (receiver : Option Value) (arguments : List Value) (span : Span) (m : Memory) :
    Q m ((Analysis.invokeWith deeper? ctx id receiver arguments span).run m).2 := by
  rw [Analysis.invokeWith, run_bind_of_eq (x := get) rfl]
  split
  · exact abides.refl m
  · next unknown =>
    cases deeper? with
    | none => exact abides.cutOff _ _ _ m
    | some deeper =>
      dsimp only
      split
      · exact abides.cutOff _ _ _ m
      · next entered => exact abides.follow (passes _ rfl) unknown entered

/-- Calls respect what all that they do respects. -/
theorem passes : ∀ depth, Passes (invoke depth) Q
  | 0 => abides.passes_of (abides.invokeWith nofun)
  | depth + 1 => abides.passes_of <| abides.invokeWith fun deeper same => by
    cases same
    exact passes depth

end Abides

/-- Between a resolution and a call that comes up in it, and from the call to the end, passes what
calls respect. -/
theorem Raises.inside {Q : Memory → Memory → Prop} (abides : Abides Q) {ctx : Context} {code : Code}
    {scope : Scope} {locals : List (String × Value)} {m : Memory} {c : MethodCall}
    (raised : Raises ctx code scope locals m c) :
    Q m c.memory ∧ Q c.after
      ((Analysis.resolve (Analysis.invoke c.depth) ctx code scope locals).run m).2 := by
  obtain ⟨s, ctx', id, index, s₁, opened, leads, issues⟩ := raised
  have passes := abides.passes c.depth
  obtain ⟨_, ends, s', opened', walks, run⟩ :=
    resolve_walks (Analysis.invoke c.depth) ctx code scope locals m
  obtain ⟨-, rfl⟩ := opened.unique opened'
  obtain ⟨before, ends', s₂, rest, behind⟩ := leads.inside passes walks
  obtain ⟨next, s₃, done, rest⟩ : ∃ next s₃,
      Gives (step (Analysis.invoke c.depth) ctx' code.steps.toArray id index) s₁ next s₃ ∧
        Q s₃.2 s₂.2 := by
    cases rest with
    | onward _ done _ walks => exact ⟨_, _, done, walks.passes passes⟩
    | stop _ done finished => exact ⟨_, _, done, passes.finish finished⟩
  obtain ⟨asked, answered⟩ := issues.inside passes done
  refine ⟨passes.trans (abides.openRoot opened) (passes.trans before asked), ?_⟩
  rw [run]
  exact passes.trans answered (passes.trans rest behind)

/-! ## The count -/

/-- Not fewer calls have been cut off. -/
def NotFewer (m m' : Memory) : Prop := m.cutoffs ≤ m'.cutoffs

/-- A call takes back no cutoff. -/
theorem abides_notFewer : Abides NotFewer where
  refl m := Nat.le_refl m.cutoffs
  trans := Nat.le_trans
  report m _ := Nat.le_refl m.cutoffs
  place m _ := Nat.le_refl m.cutoffs
  cut m := Nat.le_succ m.cutoffs
  body t id m := (body_keeps t id m).2.ge
  enter h := h
  remember _ _ _ h := h

theorem Analysis.leave_cutoffs (t : SymbolTable) (id : Nat) (receiver : Option Value)
    (arguments : List Value) (cutoffs : Nat) (r : Resolution) (m : Memory) :
    ((leave t id receiver arguments cutoffs r).run m).2.cutoffs = m.cutoffs := by
  have inert : Memory.Inert fun m' => m'.cutoffs = m.cutoffs := ⟨fun h _ => h, fun h _ => h⟩
  have left : (((resultsOf (t.method id) r).mapM fresh).run m.pop).2.cutoffs = m.cutoffs :=
    mapM_fresh_inert inert _ rfl
  rcases (leave_run t id receiver arguments cutoffs r m).2 with same | same
  · rw [same, left]
  · rw [same]
    exact left

namespace MethodCall

variable {c c' : MethodCall}

/-- A call that is not cut off is followed if its results are not kept. -/
theorem Uncut.followed (uncut : c.Uncut) (unknown : c.memory.find? c.key = none) :
    c.depth ≠ 0 ∧ c.key.call ∉ c.memory.stack := by
  have cut {m : Memory} (run : c.after = m) (more : m.cutoffs = c.memory.cutoffs + 1) : False := by
    rw [Uncut, run, more] at uncut
    exact absurd uncut (Nat.succ_ne_self _)
  rw [key] at unknown
  refine ⟨fun none => ?_, fun entered => ?_⟩
  · refine cut (m := ((cutOff c.ctx.symbols c.id c.span).run c.memory).2) ?_ rfl
    rw [after, none, invoke_zero unknown]
  · cases deep : c.depth with
    | zero =>
      refine cut (m := ((cutOff c.ctx.symbols c.id c.span).run c.memory).2) ?_ rfl
      rw [after, deep, invoke_zero unknown]
    | succ depth =>
      refine cut (m := ((cutOff c.ctx.symbols c.id c.span).run c.memory).2) ?_ rfl
      rw [after, deep, invoke_of_entered unknown entered]

/-- What a call that comes up in another does, the other has done. -/
theorem Enters.within (enters : c.Enters c') :
    NotFewer c.memory c'.memory ∧ NotFewer c'.after c.after := by
  obtain ⟨deep, unknown, entered, code, m, body, raised⟩ := enters
  obtain ⟨before, behind⟩ := raised.inside abides_notFewer
  have kept := (body_keeps c.ctx.symbols c.id c.memory).2
  rw [body] at kept
  refine ⟨kept.symm.trans_le before, ?_⟩
  rcases resolved : (resolve (Analysis.invoke c'.depth) c.ctx code c.scope c.locals).run
    (m.push c.key.call) with ⟨r, m'⟩
  have count : c.after.cutoffs = m'.cutoffs := by
    rw [MethodCall.after, deep, invoke_of_new unknown entered, follow_of_resolved body resolved,
      leave_cutoffs]
  rw [resolved] at behind
  exact behind.trans_eq count.symm

theorem Enters.symbols (enters : c.Enters c') : c'.ctx.symbols = c.ctx.symbols := by
  obtain ⟨-, -, -, code, m, -, raised⟩ := enters
  exact raised.context.1

theorem Enters.options (enters : c.Enters c') : c'.ctx.options = c.ctx.options := by
  obtain ⟨-, -, -, code, m, -, raised⟩ := enters
  exact raised.context.2

/-- Calls that come up in a call that is not cut off are not cut off. -/
theorem Enters.uncut (enters : c.Enters c') (uncut : c.Uncut) : c'.Uncut := by
  obtain ⟨before, behind⟩ := enters.within
  have during : NotFewer c'.memory c'.after := (abides_notFewer.passes c'.depth).invoke _ _ _ _ _ _
  unfold Uncut NotFewer at *
  omega

end MethodCall

end PathTyping
