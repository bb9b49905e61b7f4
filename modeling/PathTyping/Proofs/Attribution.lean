import PathTyping.Command.Outcome
import PathTyping.Proofs.Lookups
import PathTyping.Proofs.Operands
import PathTyping.Proofs.Plots

/-!
# Findings belong to the functions they were made in

An analysis reports what it finds at the span of the instruction that it has come to, whichever call
has led it there, and that a body has no code at what could not be lowered.  Both start within the
body's own function and within no other, so the entries that are shown for some functions are those
that were raised in their bodies.

1. A program that runs at an instruction reports nothing but findings at its span, and what calls
   report (`execute_reports`, `Walks.reports`).
2. So all that an analysis reports was raised in the body of a method of the table
   (`Analysis.invoke_reports`, `Query.history_reports`).
3. `Compilation.entries_raised`: where such a diagnostic starts, and when it is shown.
-/

namespace PathTyping

open Walk

/-! ## Diagnostics of a body -/

/-- The diagnostic is raised in the body of the method: at an instruction of its code, or because it
has none. -/
inductive SymbolTable.RaisedIn (t : SymbolTable) (id : Nat) : Diagnostic → Prop
  | finding {code : Code} {step : Step} (f : Finding)
      (lowered : (t.method id).decl.toCode = .ok code) (here : step ∈ code.steps) :
      RaisedIn t id (f.diagnostic step.span)
  | lowering {e : LowerError} (failed : (t.method id).decl.toCode = .error e) :
      RaisedIn t id ⟨some .lowering, .error, e.message, some e.span⟩

/-- The diagnostic is raised in the body of some method of the table. -/
def SymbolTable.Raised (t : SymbolTable) (d : Diagnostic) : Prop :=
  ∃ id, t.Has (.method id) ∧ t.RaisedIn id d

/-- All entries of the report are of the kind `R`. -/
def Report.Only (R : Diagnostic → Prop) (r : Report) : Prop := ∀ d ∈ r.entries, R d

/-- Whatever is found at `span` is of the kind `R`. -/
def Span.Allows (R : Diagnostic → Prop) (span : Span) : Prop := ∀ f : Finding, R (f.diagnostic span)

theorem Report.Only.add {R : Diagnostic → Prop} {r : Report} (h : r.Only R) {d : Diagnostic}
    (hd : R d) : (r.add d).Only R := fun _ hd' => (mem_add hd').elim (h _) fun same => same ▸ hd

/-! ## Programs -/

section Programs

variable {R : Diagnostic → Prop} {α β : Type}

/-- Nothing but diagnostics of the kind `R` is added to a report of such. -/
def Analysis.Reports (R : Diagnostic → Prop) (y : Analysis α) : Prop :=
  ∀ ⦃m⦄, m.report.Only R → (y.run m).2.report.Only R

def Walk.Reports (R : Diagnostic → Prop) (x : Walk α) : Prop :=
  Within (fun s s' => s.2.report.Only R → s'.2.report.Only R) x

namespace Analysis

theorem reports_pure (v : α) : Reports R (pure v) := fun _ h => h

theorem reports_bind {y : Analysis α} {f : α → Analysis β} (hy : Reports R y)
    (hf : ∀ v, Reports R (f v)) : Reports R (y >>= f) := fun m h => by
  rw [StateT.run_bind]
  exact hf _ (hy h)

theorem reports_get : Reports R (get : Analysis Memory) := fun _ h => h

/-- Changes of other parts of the memory leave the report as it is. -/
theorem reports_modify {f : Memory → Memory} (same : ∀ m, (f m).report = m.report) :
    Reports R (modify f : Analysis Unit) := fun m h => show (f m).report.Only R from same m ▸ h

theorem reports_fresh (v : Value) : Reports R (fresh v) := fun _ h => h

theorem reports_freshAll (values : List Value) : Reports R (values.mapM fresh) := by
  induction values with
  | nil => exact reports_pure _
  | cons v rest ih =>
    rw [List.mapM_cons]
    exact reports_bind (reports_fresh v) fun _ => reports_bind ih fun _ => reports_pure _

section At

variable {span : Span} (allows : span.Allows R)

include allows

theorem reports_report (f : Finding) : Reports R (report f span) := fun _ h => h.add (allows f)

theorem reports_settle (found : Except Finding Value) : Reports R (settle found span) := by
  cases found with
  | ok v => exact reports_pure v
  | error f => exact reports_bind (reports_report allows f) fun _ => reports_pure _

theorem reports_reportFault (fault : Option Finding) : Reports R (reportFault fault span) := by
  cases fault with
  | none => exact reports_pure _
  | some f => exact reports_report allows f

theorem reports_requestMembers (ctx : Context) (callee : Value) (members : List Member)
    (arguments : List Value) : Reports R (requestMembers ctx callee members arguments span) := by
  unfold requestMembers
  dsimp only
  split
  · exact reports_pure _
  · refine reports_bind (reports_reportFault allows _) fun _ => ?_
    split
    · exact reports_bind (reports_bind reports_get fun _ => reports_pure _) fun _ => reports_pure _
    · exact reports_pure _
    · exact reports_pure _

theorem reports_request (ctx : Context) (callee : Value) (arguments : List Value) :
    Reports R (request ctx callee arguments span) := by
  unfold request
  split
  · exact reports_bind (reports_bind (reports_reportFault allows _) fun _ => reports_pure _)
      fun _ => reports_pure _
  · exact reports_requestMembers allows ctx callee _ arguments
  · split
    · exact reports_pure _
    · exact reports_pure _
    · exact reports_bind (reports_report allows _) fun _ => reports_pure _

end At

end Analysis

namespace Walk

theorem reports_pure (v : α) : Reports R (pure v) := fun _ _ _ given h =>
  (gives_pure_iff.1 given).2 ▸ h

theorem reports_bind {x : Walk α} {f : α → Walk β} (hx : Reports R x) (hf : ∀ v, Reports R (f v)) :
    Reports R (x >>= f) := fun _ _ _ given h => by
  obtain ⟨v, s₁, given, given'⟩ := gives_bind_iff.1 given
  exact hf v given' (hx given h)

theorem reports_get : Reports R (get : Walk Arena) := fun _ _ _ given h =>
  (gives_get_iff.1 given).2 ▸ h

theorem reports_modify (g : Arena → Arena) : Reports R (modify g : Walk Unit) :=
  within_modify fun _ _ h => h

theorem reports_lift {y : Analysis α} (hy : Analysis.Reports R y) :
    Reports R (liftM y : Walk α) := within_lift fun _ _ h => hy h

variable {id : Nat}

theorem reports_bindSlot (slot : Slot) (v : Value) : Reports R (bindSlot id slot v) :=
  reports_bind (reports_lift (Analysis.reports_fresh v)) fun _ => reports_modify _

theorem reports_rebindSlot (slot : Slot) (v : Value) : Reports R (rebindSlot id slot v) :=
  reports_bind (reports_lift (Analysis.reports_fresh v)) fun _ => reports_modify _

theorem reports_bindVariable (name : String) (v : Value) : Reports R (bindVariable id name v) :=
  reports_bind (reports_lift (Analysis.reports_fresh v)) fun _ => reports_modify _

theorem reports_finish (termination : Termination) (v : Value) :
    Reports R (finish id termination v) :=
  reports_bind (reports_lift (Analysis.reports_fresh v)) fun _ => reports_modify _

theorem reports_child : Reports R (child id) := fun _ _ _ given h =>
  (gives_child_iff.1 given).2 ▸ h

theorem reports_latest : Reports R (latest id) :=
  reports_bind reports_get fun _ => reports_pure _

theorem reports_fork (options : AnalysisOptions) (target index : Nat) :
    Reports R (fork options id target index) := by
  refine reports_bind reports_get fun a => ?_
  split
  · exact reports_pure _
  · split
    · exact reports_bind reports_child fun _ => reports_bind reports_child fun _ => reports_pure _
    · exact reports_bind reports_child fun _ => reports_pure _

theorem reports_continueWith (slot : Slot) (values : List Value) (index : Nat) :
    Reports R (continueWith id slot values index) := by
  unfold continueWith
  split
  · exact reports_bind (reports_bindSlot slot _) fun _ => reports_pure _
  · exact reports_bind (reports_bindSlot slot _) fun _ => reports_pure _
  · exact reports_pure _

section At

variable {span : Span} (allows : span.Allows R)

include allows

theorem reports_operand (slot : Slot) : Reports R (operand id span slot) :=
  reports_bind reports_get fun a => by
    split
    · exact reports_pure _
    · exact reports_bind (reports_lift (Analysis.reports_report allows _)) fun _ =>
        reports_lift (Analysis.reports_fresh _)

theorem reports_operands (slots : List Slot) : Reports R (slots.mapM (operand id span)) := by
  induction slots with
  | nil => exact reports_pure _
  | cons slot rest ih =>
    rw [List.mapM_cons]
    exact reports_bind (reports_operand allows slot) fun _ => reports_bind ih fun _ =>
      reports_pure _

theorem reports_settle (found : Except Finding Value) : Reports R (settle found span) :=
  reports_lift (Analysis.reports_settle allows found)

theorem reports_load (ctx : Context) (name : String) : Reports R (load ctx id span name) :=
  reports_bind reports_get fun a => by
    split
    · exact reports_pure _
    · exact reports_settle allows _

theorem reports_loadMember (ctx : Context) (slot : Slot) (name : String) :
    Reports R (loadMember ctx id span slot name) :=
  reports_bind (reports_operand allows slot) fun target => by
    split
    · exact reports_pure _
    · split
      · exact reports_settle allows _
      · exact reports_bind (reports_lift (Analysis.reports_fresh _)) fun _ =>
          reports_bind (reports_rebindSlot slot _) fun _ => reports_pure _

end At

end Walk

end Programs

/-! ## Instructions and walks -/

/-- A call of a method of the table reports nothing but diagnostics of the kind `R`, where findings
at the instruction that makes it are of that kind. -/
def Invoke.Reports (t : SymbolTable) (R : Diagnostic → Prop) (invoke : Invoke) : Prop :=
  ∀ ctx, ctx.symbols = t → ∀ id receiver arguments span m, t.Has (.method id) →
    (∀ r, receiver = some r → r.WellFormed t) → (∀ v ∈ arguments, v.WellFormed t) →
      span.Allows R → m.Sound t (Value.WellFormed t) → m.report.Only R →
        ((invoke ctx id receiver arguments span).run m).2.report.Only R

section Walks

variable {t : SymbolTable} {R : Diagnostic → Prop} {invoke : Invoke} {ctx : Context}
  {id index : Nat} {s s' : State} {steps : List Step} {next : Next} {task : Task}
  {P : Context → Nat → Nat → State → Prop} {ends : List Nat}
  (consistent : t.Consistent) (sound : Invoke.Sound t (Value.WellFormed t) invoke)
  (calls : Invoke.Reports t R invoke)

include consistent calls

/-- What is called is a method that the callee names, so the table has it. -/
theorem Walk.results_reports (symbols : ctx.symbols = t) {span : Span} (allows : span.Allows R)
    (callee : Slot) (arguments : List Slot) {values : List Value}
    (state : State.Sound t (Value.WellFormed t) s) (only : s.2.report.Only R)
    (given : Gives (results invoke ctx id span callee arguments) s values s') :
    s'.2.report.Only R := by
  have closed := Value.closed_wellFormed consistent
  obtain ⟨v, s₁, read, given⟩ := gives_bind_iff.1 given
  obtain ⟨typed, state⟩ := operand_yields closed callee state read
  have only := reports_operand allows callee read only
  obtain ⟨vs, s₂, reads, given⟩ := gives_bind_iff.1 given
  obtain ⟨typeds, state⟩ := yields_mapM (fun slot _ => operand_yields closed slot) state reads
  have only := reports_operands allows arguments reads only
  obtain ⟨a, s₃, got, given⟩ := gives_bind_iff.1 given
  obtain ⟨rfl, rfl⟩ := gives_get_iff.1 got
  obtain ⟨rfl, -⟩ := gives_lift_iff.1 given
  have symbols : (ctx.enter s₃.1).symbols = t := symbols
  obtain ⟨made, memory⟩ := Analysis.request_yields closed symbols typed vs span state.memory
  have only := Analysis.reports_request allows (ctx.enter s₃.1) v vs only
  dsimp only
  rw [Analysis.call, StateT.run_bind]
  rcases out : (Analysis.request (ctx.enter s₃.1) v vs span).run s₃.2 with ⟨request, m⟩
  rw [out] at made memory only
  cases request with
  | answered answers => exact only
  | enter method receiver =>
    obtain ⟨members, named, inside⟩ := Analysis.mem_of_request out
    exact calls _ symbols method receiver vs span m ((typed.members named).has _ inside) made typeds
      allows memory only

theorem Walk.execute_reports (symbols : ctx.symbols = t) {step : Step}
    (allows : step.span.Allows R) (state : State.Sound t (Value.WellFormed t) s)
    (only : s.2.report.Only R) (given : Gives (execute invoke ctx id index step) s next s') :
    s'.2.report.Only R := by
  obtain ⟨instr, span⟩ := step
  have read (slot : Slot) : Reports R (operand id span slot) := reports_operand allows slot
  have bind (slot : Slot) (v : Value) :
      Reports R (do bindSlot id slot v; return .next (index + 1) : Walk Next) :=
    reports_bind (reports_bindSlot slot v) fun _ => reports_pure _
  cases instr with
  | call result callee arguments =>
    obtain ⟨values, s₁, answered, given⟩ := gives_bind_iff.1 given
    have only :=
      results_reports consistent calls symbols allows callee arguments state only answered
    exact reports_bind reports_get (fun _ => reports_continueWith _ _ _) given only
  | const result l => exact bind _ _ given only
  | unary result op x => exact reports_bind (read x) (fun _ => bind _ _) given only
  | binary result x op y =>
    exact reports_bind (read x) (fun _ => reports_bind (read y) fun _ => bind _ _) given only
  | goto target => exact reports_pure (Next.next target) given only
  | gotoIf target condition expected =>
    exact reports_bind (read condition) (fun _ => reports_fork _ _ _) given only
  | load result name =>
    exact reports_bind (reports_load allows ctx name) (fun _ => bind _ _) given only
  | member result target name =>
    exact reports_bind (reports_loadMember allows ctx target name) (fun _ => bind _ _) given only
  | index result target key =>
    exact reports_bind (read target) (fun _ => reports_bind (read key) fun _ =>
      reports_bind (reports_settle allows _) fun _ => bind _ _) given only
  | store name value =>
    exact reports_bind (read value) (fun _ => reports_bind (reports_bindVariable name _) fun _ =>
      reports_pure _) given only
  | ret value =>
    cases value with
    | some x => exact reports_bind (read x) (fun _ => reports_pure _) given only
    | none => exact reports_bind reports_latest (fun _ => reports_pure _) given only

theorem Walk.step_reports (symbols : ctx.symbols = t) (allows : ∀ step ∈ steps, step.span.Allows R)
    (state : State.Sound t (Value.WellFormed t) s) (only : s.2.report.Only R)
    (done : Gives (Walk.step invoke ctx steps.toArray id index) s next s') :
    s'.2.report.Only R := by
  unfold Walk.step at done
  split at done
  · exact reports_bind reports_latest (fun _ => reports_pure _) done only
  · next step found =>
    rw [List.getElem?_toArray] at found
    have allows := allows step (List.mem_of_getElem? found)
    obtain ⟨first, s₁, arrived, done⟩ := gives_bind_iff.1 done
    have state := (arrive_yields index state arrived).2
    have memory : s₁.2 = s.2 := (congrArg Prod.snd arrived).symm
    rw [← memory] at only
    split at done
    · exact execute_reports consistent calls symbols allows state only done
    · exact reports_bind reports_get (fun _ => reports_bind
        (reports_lift (Analysis.reports_report allows _)) fun _ => reports_pure _) done only

include sound

/-- A walk reports nothing but what is found at the instructions, and what calls report. -/
theorem Walks.reports (allows : ∀ step ∈ steps, step.span.Allows R)
    (walks : Walks invoke steps.toArray P task s ends s')
    (state : State.Sound t (Value.WellFormed t) s) (fits : task.Sound t (Value.WellFormed t))
    (only : s.2.report.Only R) : s'.2.report.Only R := by
  have closed := Value.closed_wellFormed consistent
  induction walks with
  | onward _ done goes _ ih =>
    obtain ⟨next, after⟩ := step_yields closed sound fits steps.toArray _ state done
    exact ih after (next.sound fits goes)
      (step_reports consistent calls fits allows state only done)
  | stop _ done finished =>
    exact reports_finish _ _ finished (step_reports consistent calls fits allows state only done)
  | allNil => exact only
  | allCons first _ ihFirst ihRest =>
    exact ihRest (first.sound closed sound state fits) fits (ihFirst state fits only)
  | eachNil => exact only
  | eachCons bound first _ ihFirst ihRest =>
    obtain ⟨symbols, values⟩ := fits
    obtain ⟨value, others⟩ := List.forall_mem_cons.1 values
    have made := sound_each closed value state bound
    refine ihRest (first.sound closed sound made symbols) ⟨symbols, others⟩ ?_
    exact ihFirst made symbols (reports_bindSlot _ _ bound only)

end Walks

/-! ## Bodies -/

namespace Analysis

variable {t : SymbolTable} {ctx : Context} {id : Nat} {m m' : Memory} {deeper : Invoke}

/-- At an instruction of a body, findings are raised in that body. -/
theorem allows_of_lowered (has : t.Has (.method id)) {code : Code}
    (lowered : (t.method id).decl.toCode = .ok code) :
    ∀ step ∈ code.steps, step.span.Allows t.Raised :=
  fun _ here f => ⟨id, has, .finding f lowered here⟩

theorem body_reports (has : t.Has (.method id)) : Reports t.Raised (body t id) := fun m only => by
  cases kept : Assoc.find? m.bodies id with
  | some code => exact body_of_kept kept ▸ only
  | none =>
    simp only [body, StateT.run_bind, StateT.run_get, pure_bind, kept]
    cases lowered : (t.method id).decl.toCode with
    | ok code => exact only
    | error e => exact only.add ⟨id, has, .lowering lowered⟩

/-- Entering a body is sound and reports what is raised there; the code is that of the method. -/
theorem entered (has : t.Has (.method id)) (memory : m.Sound t (Value.WellFormed t))
    (only : m.report.Only t.Raised) {code? : Option Code} (out : (body t id).run m = (code?, m')) :
    m'.Sound t (Value.WellFormed t) ∧ m'.report.Only t.Raised ∧
      ∀ code, code? = some code → (t.method id).decl.toCode = .ok code := by
  obtain ⟨made, memory⟩ := body_yields id memory
  have only := body_reports has only
  rw [out] at made memory only
  refine ⟨memory, only, fun code some_ => ?_⟩
  cases lowered : (t.method id).decl.toCode with
  | error e => rw [lowered, some_] at made; cases made
  | ok other => rw [lowered, some_] at made; cases made; rfl

theorem reports_openRoot {R : Diagnostic → Prop} (scope : Scope) (locals : List (String × Value)) :
    Walk.Reports R (openRoot scope locals) := by
  refine Walk.reports_bind (Walk.reports_modify _) fun _ => ?_
  induction locals with
  | nil => exact Walk.reports_pure _
  | cons p rest ih => exact Walk.reports_bind (reports_bindVariable p.1 p.2) fun _ => ih

theorem reports_declared {R : Diagnostic → Prop} (m : Method) :
    Reports R (do return [← fresh (declared m)]) :=
  reports_bind (reports_fresh _) fun _ => reports_pure _

theorem reports_cutOff {R : Diagnostic → Prop} (t : SymbolTable) (id : Nat) {span : Span}
    (allows : span.Allows R) : Reports R (cutOff t id span) :=
  reports_bind (reports_modify fun _ => rfl) fun _ =>
    reports_bind (reports_report allows _) fun _ => reports_declared _

theorem reports_leave {R : Diagnostic → Prop} (t : SymbolTable) (id : Nat)
    (receiver : Option Value) (arguments : List Value) (cutoffs : Nat) (r : Resolution) :
    Reports R (leave t id receiver arguments cutoffs r) := by
  refine reports_bind (reports_modify fun _ => rfl) fun _ => ?_
  refine reports_bind (reports_freshAll _) fun values => reports_bind reports_get fun m => ?_
  split
  · exact reports_bind (reports_modify fun _ => rfl) fun _ => reports_pure _
  · exact reports_pure _

section Bodies

variable (consistent : t.Consistent)

include consistent

/-- All paths through the body of a method report what is raised in bodies. -/
theorem resolve_reports (symbols : ctx.symbols = t)
    (sound : Invoke.Sound t (Value.WellFormed t) deeper) (calls : Invoke.Reports t t.Raised deeper)
    (has : t.Has (.method id)) {code : Code} (lowered : (t.method id).decl.toCode = .ok code)
    (scope : Scope) {locals : List (String × Value)} (typed : ∀ p ∈ locals, p.2.WellFormed t)
    (memory : m.Sound t (Value.WellFormed t)) (only : m.report.Only t.Raised) :
    ((resolve deeper ctx code scope locals).run m).2.report.Only t.Raised := by
  obtain ⟨s, ends, s', opened, walks, run⟩ := resolve_walks deeper ctx code scope locals m
  have start := openRoot_sound (Value.closed_wellFormed consistent) typed memory opened
  rw [run]
  exact walks.reports consistent sound calls (allows_of_lowered has lowered) start symbols
    (reports_openRoot scope locals opened only)

theorem follow_reports (symbols : ctx.symbols = t)
    (sound : Invoke.Sound t (Value.WellFormed t) deeper) (calls : Invoke.Reports t t.Raised deeper)
    (has : t.Has (.method id)) {receiver : Option Value} {arguments : List Value}
    (typed : ∀ r, receiver = some r → r.WellFormed t) (typeds : ∀ v ∈ arguments, v.WellFormed t)
    (memory : m.Sound t (Value.WellFormed t)) (only : m.report.Only t.Raised) :
    ((follow deeper ctx id receiver arguments).run m).2.report.Only t.Raised := by
  subst symbols
  rcases out : (body ctx.symbols id).run m with ⟨_ | code, m₁⟩
  · rw [follow_of_none _ _ _ out]
    exact (entered has memory only out).2.1
  · obtain ⟨memory, only, lowered⟩ := entered has memory only out
    rw [follow_of_body _ _ _ out]
    dsimp only
    have bound := only_entryVariables (Value.closed_wellFormed consistent) id typed typeds
    refine reports_leave _ id receiver arguments _ _ ?_
    exact resolve_reports consistent rfl sound calls has (lowered code rfl) _ bound
      (memory.push _) only

theorem invokeWith_reports {deeper? : Option Invoke}
    (sound : ∀ deeper, deeper? = some deeper → Invoke.Sound t (Value.WellFormed t) deeper)
    (calls : ∀ deeper, deeper? = some deeper → Invoke.Reports t t.Raised deeper) :
    Invoke.Reports t t.Raised (invokeWith deeper?) := by
  intro ctx symbols id receiver arguments span m has typed typeds allows memory only
  rw [invokeWith, run_bind_of_eq (x := get) rfl]
  split
  · exact only
  · split
    · exact reports_cutOff _ id allows only
    · next deeper =>
      split
      · exact reports_cutOff _ id allows only
      · exact follow_reports consistent symbols (sound deeper rfl) (calls deeper rfl) has typed
          typeds memory only

/-- Calls report nothing but what is raised in bodies. -/
theorem invoke_reports (depth : Nat) : Invoke.Reports t t.Raised (invoke depth) := by
  have sound := invoke_yields (Value.closed_wellFormed consistent)
  induction depth with
  | zero => exact invokeWith_reports consistent nofun nofun
  | succ depth ih =>
    refine invokeWith_reports consistent ?_ ?_
    · rintro _ ⟨⟩
      exact sound depth
    · rintro _ ⟨⟩
      exact ih

end Bodies

/-! ## Queries -/

variable (consistent : ctx.symbols.Consistent)

include consistent

theorem resolveMethod_reports (has : ctx.symbols.Has (.method id))
    (memory : m.Sound ctx.symbols (Value.WellFormed ctx.symbols))
    (only : m.report.Only ctx.symbols.Raised) :
    ((resolveMethod ctx id).run m).2.report.Only ctx.symbols.Raised := by
  have closed := Value.closed_wellFormed consistent
  rcases out : (body ctx.symbols id).run m with ⟨_ | code, m₁⟩
  · rw [resolveMethod, run_bind_of_eq out]
    exact (entered has memory only out).2.1
  · obtain ⟨memory, only, lowered⟩ := entered has memory only out
    rw [resolveMethod_of_code out]
    exact resolve_reports consistent rfl (calls_yields closed ctx _) (invoke_reports consistent _)
      has (lowered code rfl) _ (only_variablesIn closed (closed.owner id)) (memory.push _) only

end Analysis

namespace Query

variable {ctx : Context} {m : Memory} {q : Query}

theorem valid_of_method {id : Nat} {t : SymbolTable} (about : q.method? = some id)
    (has : t.Has (.method id)) : q.Valid t := by
  cases q <;> cases about <;> exact has

theorem after_reports (consistent : ctx.symbols.Consistent) {id : Nat} (about : q.method? = some id)
    (has : ctx.symbols.Has (.method id))
    (memory : m.Sound ctx.symbols (Value.WellFormed ctx.symbols))
    (only : m.report.Only ctx.symbols.Raised) : (q.after ctx m).report.Only ctx.symbols.Raised := by
  have resolved := Analysis.resolveMethod_reports consistent has memory only
  cases q with
  | body => cases about; exact Analysis.body_reports has only
  | resolveMethod => cases about; exact resolved
  | returnType =>
    cases about
    rw [after, returnType_run]
    exact resolved
  | typeAt _ span => cases about; exact resolved
  | resolveCode | typeOfExpression => cases about

/-- Whatever is asked about methods of the table, one query behind the other, all that is reported
was raised in their bodies or in those of the methods that are called. -/
theorem history_reports (consistent : ctx.symbols.Consistent) {queries : List Query}
    (about : ∀ q ∈ queries, ∃ id, q.method? = some id ∧ ctx.symbols.Has (.method id))
    (memory : m.Sound ctx.symbols (Value.WellFormed ctx.symbols))
    (only : m.report.Only ctx.symbols.Raised) :
    (history ctx m queries).report.Only ctx.symbols.Raised := by
  induction queries generalizing m with
  | nil => exact only
  | cons q rest ih =>
    obtain ⟨⟨id, asks, has⟩, others⟩ := List.forall_mem_cons.1 about
    refine ih others (@sound_history ctx consistent [q] m memory ?_) ?_
    · exact List.forall_mem_singleton.2 (valid_of_method asks has)
    · exact after_reports consistent asks has memory only

/-- To summarize methods is to ask what each returns, and for its code. -/
theorem memory_summaries (ids : List Nat) (m : Memory) :
    ((ids.mapM (Analysis.summary ctx)).run m).2 = history ctx m (summarized ids) := by
  induction ids generalizing m with
  | nil => rfl
  | cons id rest ih =>
    rw [List.mapM_cons]
    exact ih _

theorem summaries_reports (consistent : ctx.symbols.Consistent) :
    ((Analysis.summaries ctx).run .empty).2.report.Only ctx.symbols.Raised := by
  rw [Analysis.summaries, memory_summaries]
  refine history_reports consistent (fun q hq => ?_) (Memory.sound_empty _ _) nofun
  obtain ⟨id, hid, asked⟩ := List.mem_flatMap.1 hq
  refine ⟨id, ?_, List.mem_range.1 hid⟩
  rcases List.mem_pair.1 asked with rfl | rfl <;> rfl

end Query

/-! ## Compilations -/

/-- What is raised in the body of a method starts in its declaration and in no other; what an
analysis has reported is raised in some body; and among the entries that are shown for a name are
those that were raised in the bodies of the functions of that name. -/
structure Compilation.Attributes (c : Compilation) : Prop where
  starts : ∀ id < c.symbols.methods.length, ∀ d, c.symbols.RaisedIn id d →
    ∃ span, d.span = some span ∧ span.isAbsent = false ∧
      ∀ other < c.symbols.methods.length,
        (c.symbols.method other).decl.Covers span ↔ other = id
  raised : ∀ d ∈ c.report.entries, d.kind.isSome = true →
    ∃ id < c.symbols.methods.length, c.symbols.RaisedIn id d
  shown : ∀ name entries, c.entriesOf (some name) = .ok entries → ∀ d, d.kind.isSome = true →
    (d ∈ entries ↔ d ∈ c.report.entries ∧
      ∃ s ∈ c.summaries, s.isNamed name = true ∧ c.symbols.RaisedIn s.id d)

/-- What is raised in a body stands at a span that the body comes from. -/
theorem SymbolTable.RaisedIn.source {t : SymbolTable} {id : Nat} {d : Diagnostic}
    (h : t.RaisedIn id d)
    (present : ∀ s ∈ (t.method id).decl.sources, s.isAbsent = false) :
    ∃ span ∈ (t.method id).decl.sources, d.span = some span := by
  cases h with
  | @finding code step f lowered here =>
    have source := (t.method id).decl.toCode_from.ok code lowered step here
    refine ⟨step.span, source, ?_⟩
    show step.span.present? = some step.span
    rw [Span.present?, present _ source]
    rfl
  | @lowering e failed => exact ⟨e.span, (t.method id).decl.toCode_from.error e failed, rfl⟩

theorem Report.mem_merge {r r' : Report} {d : Diagnostic} (h : d ∈ (r.merge r').entries) :
    d ∈ r.entries ∨ d ∈ r'.entries := by
  obtain ⟨entries⟩ := r'
  induction entries generalizing r with
  | nil => exact .inl h
  | cons e rest ih =>
    rcases ih h with added | later
    · refine (mem_add added).imp_right ?_
      rintro rfl
      exact List.mem_cons_self
    · exact .inr (List.mem_cons_of_mem _ later)

namespace Compilation

variable {options : AnalysisOptions} {text : String} {c : Compilation}

theorem lt_of_mem_summaries (built : ofText options text = .ok c) {s : Summary}
    (hs : s ∈ c.summaries) : s.id < c.symbols.methods.length := by
  obtain ⟨m, read, -, rfl⟩ := exists_module built
  obtain ⟨before, after, ids, -⟩ := Query.returns_of_mem hs
  exact List.mem_range.1 (ids ▸ List.mem_append_right _ List.mem_cons_self)

/-- The entries for a name are those that start in a function of that name. -/
theorem mem_entriesOf {name : String} {entries : List Diagnostic}
    (h : c.entriesOf (some name) = .ok entries) {d : Diagnostic} :
    d ∈ entries ↔ d ∈ c.report.entries ∧ ∃ s ∈ c.summaries, s.isNamed name = true ∧
      ∃ span, d.span = some span ∧ (c.symbols.method s.id).decl.Covers span := by
  obtain ⟨chosen, selected, h⟩ := bind_eq_ok h
  cases h
  have same : chosen = c.summaries.filter (·.isNamed name) := by
    unfold select at selected
    dsimp only at selected
    split at selected
    · cases selected
    · exact (Except.ok.inj selected).symm
  rw [List.mem_filter, same]
  refine and_congr_right fun _ => ?_
  cases d.span with
  | none => simp
  | some span => simp [FunctionDecl.Covers]

/-- What is raised in the body of a method starts in that method. -/
theorem starts_of_raised (built : ofText options text = .ok c) {id : Nat}
    (has : id < c.symbols.methods.length) {d : Diagnostic} (raised : c.symbols.RaisedIn id d) :
    ∃ span, d.span = some span ∧ span.isAbsent = false ∧
      ∀ other < c.symbols.methods.length,
        (c.symbols.method other).decl.Covers span ↔ other = id := by
  obtain ⟨m, read, parsed, rfl⟩ := exists_module built
  obtain ⟨span, source, stands⟩ := raised.source fun s hs =>
    (SymbolTable.covers_source parsed rfl has hs).1
  exact ⟨span, stands, SymbolTable.covers_source parsed rfl has source⟩

/-- What has a kind was reported by the analysis. -/
theorem raised_of_kind (built : ofText options text = .ok c) {d : Diagnostic}
    (reported : d ∈ c.report.entries) (some_ : d.kind.isSome = true) :
    ∃ id < c.symbols.methods.length, c.symbols.RaisedIn id d := by
  obtain ⟨m, read, parsed, rfl⟩ := exists_module built
  have kindless {r : Report} (h : r.Kindless) : d ∉ r.entries := fun hd => by
    rw [h d hd] at some_
    cases some_
  rcases Report.mem_merge reported with front | found
  · rcases Report.mem_merge front with front | front
    · exact absurd front (kindless (Module.kindless_ofText parsed))
    · exact absurd front (kindless (SymbolTable.kindless_ofModule m))
  · exact Query.summaries_reports (SymbolTable.consistent_ofModule m) d found

/-- Diagnostics of the analysis belong to the functions that they were raised in, whichever call has
led there. -/
theorem attributes_ofText (built : ofText options text = .ok c) : c.Attributes where
  starts _ has _ := starts_of_raised built has
  raised _ := raised_of_kind built
  shown name entries asked d some_ := by
    rw [mem_entriesOf asked]
    refine and_congr_right fun reported => exists_congr fun s => and_congr_right fun hs =>
      and_congr_right fun _ => ⟨?_, fun raised => ?_⟩
    · rintro ⟨span, stands, covers⟩
      obtain ⟨id, has, raised⟩ := raised_of_kind built reported some_
      obtain ⟨_, same, -, only⟩ := starts_of_raised built has raised
      cases stands.symm.trans same
      exact (only _ (lt_of_mem_summaries built hs)).1 covers ▸ raised
    · obtain ⟨span, stands, -, only⟩ := starts_of_raised built (lt_of_mem_summaries built hs) raised
      exact ⟨span, stands, (only _ (lt_of_mem_summaries built hs)).2 rfl⟩

end Compilation

/-- Three functions on two lines, the first of which ends within a string.  The call in `f` leads
to a member in `g` that a string does not have; `m` assigns to a member. -/
def crowdedText : String :=
  "fn f() \x7b return g(\"a\\\nb\") \x7d fn g(x) \x7b return x.y \x7d " ++
    "class C \x7b fn m(o) \x7b o.p = 1 \x7d \x7d"

def crowded : Compilation := ((Compilation.ofText .standard crowdedText).toOption).getD default

theorem Compilation.attributes_crowded :
    Compilation.ofText .standard crowdedText = .ok crowded ∧ crowded.Attributes ∧
      crowded.symbols.methods.map (fun m => m.decl.span) =
        [⟨1, 1, 2, 5⟩, ⟨2, 7, 2, 28⟩, ⟨2, 40, 2, 58⟩] ∧
      crowded.report.entries.map (fun d => (d.message, d.span)) =
        [("type 'String' has no member 'y'", some ⟨2, 24, 2, 26⟩),
          ("assignment to this kind of target is not supported (line 2, column 50)",
            some ⟨2, 50, 2, 52⟩)] := by
  obtain ⟨read, spans, found⟩ :
      (Compilation.ofText .standard crowdedText).toOption.isSome = true ∧
        crowded.symbols.methods.map (fun m => m.decl.span) =
          [⟨1, 1, 2, 5⟩, ⟨2, 7, 2, 28⟩, ⟨2, 40, 2, 58⟩] ∧
        crowded.report.entries.map (fun d => (d.message, d.span)) =
          [("type 'String' has no member 'y'", some ⟨2, 24, 2, 26⟩),
            ("assignment to this kind of target is not supported (line 2, column 50)",
              some ⟨2, 50, 2, 52⟩)] := by
    have row : TokenRow.ofText crowdedText = _ :=
      TokenRow.ofText_of_eq_append (by unfold crowdedText; with_reducible rfl)
    rw [crowded, Compilation.ofText, Module.ofText, row]
    decide +kernel
  have built : Compilation.ofText .standard crowdedText = .ok crowded := eq_ok_of_isSome read
  exact ⟨built, Compilation.attributes_ofText built, spans, found⟩

end PathTyping
