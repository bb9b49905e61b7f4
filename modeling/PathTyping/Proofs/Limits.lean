import PathTyping.Proofs.Refinement
import PathTyping.Proofs.WellFormed

/-!
# Limits that are not met

Two limits keep an analysis finite: how many calls are followed inside one another, and how many
branches a resolution may have.  A query that meets neither of them would go on in the same way
under wider ones.  It makes the same branches, ends on the same ones, follows the same calls and
leaves the same memory behind.

1. An instruction that is not refused a branch, and whose call is answered alike, is executed alike
   (`execute_within`, `step_within`), and so are whole walks (`Walks.within`).
2. By induction on how many calls may be followed, a call that meets no limit is answered alike
   (`MethodCall.Unlimited.invoke_eq`).
3. So is a query (`Query.limits_change_nothing`).
4. Whether a query meets a limit can be found out by following it (`Query.unlimited_of_meetsNone`).
-/

namespace PathTyping

open Walk

/-! ## Wider limits -/

/-- The limits are as wide or wider, and paths fork in the same way. -/
structure AnalysisOptions.Widens (narrow wide : AnalysisOptions) : Prop where
  forkMode : wide.forkMode = narrow.forkMode
  maxCallDepth : narrow.maxCallDepth ≤ wide.maxCallDepth
  maxBranches : narrow.maxBranches ≤ wide.maxBranches

/-- The same surroundings under other limits. -/
def Context.within (ctx : Context) (options : AnalysisOptions) : Context :=
  { ctx with options := options }

/-- The same task under other limits. -/
def Task.within (options : AnalysisOptions) : Task → Task
  | path ctx id index => path (ctx.within options) id index
  | all ctx starts => all (ctx.within options) starts
  | each ctx id slot values index => each (ctx.within options) id slot values index

theorem Next.task_within {next : Next} {ctx : Context} {id : Nat} {task : Task}
    (options : AnalysisOptions) (goes : next.task? ctx id = some task) :
    next.task? (ctx.within options) id = some (task.within options) := by
  cases next with
  | stop t v => cases goes
  | _ => cases goes; rfl

/-! ## Steps -/

section Step

variable {invoke other : Invoke} {depth : Nat} {steps : Array Step} {ctx : Context}
  {wide : AnalysisOptions} {id index : Nat} {s s₀ s' : State} {next : Next} {instruction : Step}

/-- Where there is room for another branch, a jump splits its path under wider limits too. -/
theorem fork_within (widens : ctx.options.Widens wide) (room : s.1.size < ctx.options.maxBranches)
    {target : Nat} (given : Gives (fork ctx.options id target index) s next s') :
    Gives (fork wide id target index) s next s' := by
  unfold fork at given ⊢
  obtain ⟨a, s₁, got, given⟩ := gives_bind_iff.1 given
  obtain ⟨rfl, rfl⟩ := gives_get_iff.1 got
  refine gives_bind got ?_
  have wider := widens.maxBranches
  rw [if_neg (by omega)] at given
  rw [if_neg (by omega), widens.forkMode]
  exact given

/-- Where there is room for all results of a call, a path goes on with them under wider limits
too. -/
theorem continueWith_within (widens : ctx.options.Widens wide) {slot : Slot} {values : List Value}
    (room : values.length ≤ 1 ∨ s.1.size + values.length ≤ ctx.options.maxBranches)
    (given : Gives (do
      Walk.continueWith id slot (affordable ctx.options (← get).size values) index) s next s') :
    Gives (do Walk.continueWith id slot (affordable wide (← get).size values) index) s next s' := by
  obtain ⟨a, s₁, got, given⟩ := gives_bind_iff.1 given
  obtain ⟨rfl, rfl⟩ := gives_get_iff.1 got
  refine gives_bind got ?_
  have wider := widens.maxBranches
  rw [affordable_of_room room] at given
  rw [affordable_of_room (by omega)]
  exact given

/-- An instruction that is not refused a branch is executed alike under wider limits, if its call
is answered alike. -/
theorem execute_within (widens : ctx.options.Widens wide)
    (room : Roomy invoke ctx id instruction s)
    (answered : ∀ result callee arguments, instruction.instr = .call result callee arguments →
      ∀ values s₁,
        Gives (Walk.results invoke ctx id instruction.span callee arguments) s values s₁ →
        Gives (Walk.results other (ctx.within wide) id instruction.span callee arguments) s values
          s₁)
    (given : Gives (execute invoke ctx id index instruction) s next s') :
    Gives (execute other (ctx.within wide) id index instruction) s next s' := by
  obtain ⟨instr, span⟩ := instruction
  cases instr with
  | gotoIf target condition expected =>
    obtain ⟨v, s₁, read, given⟩ := gives_bind_iff.1 given
    have size := ((admits_bound invoke id).operand _ _ read).apart.size
    exact gives_bind read (fork_within widens (size ▸ room) given)
  | call result callee arguments =>
    obtain ⟨values, s₁, called, given⟩ := gives_bind_iff.1 given
    have size := ((admits_bound invoke id).results ctx _ _ _ called).apart.size
    refine gives_bind (answered _ _ _ rfl _ _ called) (continueWith_within widens ?_ given)
    rw [size]
    exact room values s₁ called
  | ret value => cases value <;> exact given
  | _ => exact given

/-- The call is answered alike where other calls may be followed and other limits hold. -/
def MethodCall.SameWithin (c : MethodCall) (other : Invoke) (wide : AnalysisOptions) : Prop :=
  (other (c.ctx.within wide) c.id c.receiver c.arguments c.span).run c.memory =
    (Analysis.invoke c.depth c.ctx c.id c.receiver c.arguments c.span).run c.memory

theorem results_within
    (same : ∀ c : MethodCall, c.depth = depth → Issues steps ctx id index s c →
      c.SameWithin other wide)
    {result callee : Slot} {arguments : List Slot} {span : Span} {values : List Value}
    (here : steps[index]? = some ⟨.call result callee arguments, span⟩)
    (arrived : Gives (arrive id index) s true s₀)
    (given : Gives (Walk.results (Analysis.invoke depth) ctx id span callee arguments) s₀ values
      s') :
    Gives (Walk.results other (ctx.within wide) id span callee arguments) s₀ values s' := by
  obtain ⟨v, s₁, read, given⟩ := gives_bind_iff.1 given
  obtain ⟨vs, s₂, reads, given⟩ := gives_bind_iff.1 given
  obtain ⟨a, s₃, got, given⟩ := gives_bind_iff.1 given
  obtain ⟨rfl, rfl⟩ := gives_get_iff.1 got
  refine gives_bind read (gives_bind reads (gives_bind got ?_))
  suffices alike : (Analysis.call other ((ctx.within wide).enter s₃.1) v vs span).run s₃.2 =
      (Analysis.call (Analysis.invoke depth) (ctx.enter s₃.1) v vs span).run s₃.2 by
    rw [gives_lift_iff] at given ⊢
    rwa [alike]
  rcases asked : (Analysis.request (ctx.enter s₃.1) v vs span).run s₃.2 with ⟨request, m⟩
  have asked' : (Analysis.request ((ctx.within wide).enter s₃.1) v vs span).run s₃.2 =
      (request, m) := asked
  rw [Analysis.call, Analysis.call, Analysis.run_bind_of_eq asked, Analysis.run_bind_of_eq asked']
  cases request with
  | answered answers => rfl
  | enter method receiver =>
    exact same ⟨depth, ctx.enter s₃.1, method, receiver, vs, span, m⟩ rfl
      ⟨result, callee, arguments, v, s₀, s₁, s₃, here, arrived, read, reads, rfl, asked⟩

/-- A path that is not refused a branch takes the same step under wider limits, if its call is
answered alike. -/
theorem step_within (widens : ctx.options.Widens wide)
    (granted : Granted (Analysis.invoke depth) steps ctx id index s)
    (same : ∀ c : MethodCall, c.depth = depth → Issues steps ctx id index s c →
      c.SameWithin other wide)
    (stands : id < s.1.size)
    (given : Gives (step (Analysis.invoke depth) ctx steps id index) s next s') :
    Gives (step other (ctx.within wide) steps id index) s next s' := by
  obtain ⟨b, found⟩ := Arena.exists_branch stands
  unfold step at given ⊢
  split at given
  · exact given
  · next instruction here =>
    obtain ⟨first, s₁, arrived, given⟩ := gives_bind_iff.1 given
    refine gives_bind arrived ?_
    split at given
    · next new =>
      subst new
      obtain ⟨unseen, rfl⟩ := gives_arrive found arrived
      have visits : b.visits index = 0 := eq_of_beq unseen.symm
      have room := granted instruction here (by rw [found]; exact visits)
      rw [if_pos rfl]
      refine execute_within widens room (fun result callee arguments calls values s₂ => ?_) given
      obtain ⟨instr, span⟩ := instruction
      subst calls
      exact results_within same here arrived
    · next again =>
      rw [if_neg again]
      exact given

end Step

/-! ## Walks -/

section Walks

variable {other : Invoke} {depth : Nat} {steps : Array Step} {wide : AnalysisOptions}
  {s s' : State} {task : Task} {ends : List Nat}

/-- A path meets no limit: it is not refused a branch, and its call is answered alike under wider
limits. -/
structure Passable (depth : Nat) (other : Invoke) (wide : AnalysisOptions) (steps : Array Step)
    (ctx : Context) (id index : Nat) (s : State) : Prop where
  widens : ctx.options.Widens wide
  granted : Granted (Analysis.invoke depth) steps ctx id index s
  same : ∀ c : MethodCall, c.depth = depth → Issues steps ctx id index s c → c.SameWithin other wide

/-- A walk that meets no limit goes on in the same way under wider ones. -/
theorem Walks.within
    (h : Walks (Analysis.invoke depth) steps (Passable depth other wide steps) task s ends s')
    (stands : task.Stands s.1) :
    Walks other steps (fun _ _ _ _ => True) (task.within wide) s ends s' := by
  induction h with
  | onward passable done goes _ ih =>
    have done' := step_within passable.widens passable.granted passable.same stands done
    have stands' := ((step_framed stands done).2 _ goes).1
    exact .onward trivial done' (Next.task_within wide goes) (ih stands')
  | stop passable done finished =>
    exact .stop trivial (step_within passable.widens passable.granted passable.same stands done)
      finished
  | allNil => exact .allNil
  | allCons first _ ihFirst ihRest =>
    have begun := stands _ List.mem_cons_self
    have grows := (first.framed begun).1.grows
    exact .allCons (ihFirst begun) (ihRest (Task.Stands.rest stands grows))
  | eachNil => exact .eachNil
  | @eachCons ctx id index slot v values s s₁ s₂ s' ends more bound first _ ihFirst ihRest =>
    have size := size_of_bound bound
    have begun : s.1.size < s₁.1.size := by omega
    have grows := (first.framed begun).1.grows
    refine .eachCons bound (ihFirst begun) (ihRest ?_)
    exact Nat.lt_of_lt_of_le (Nat.lt_trans stands begun) grows

/-- A resolution that meets no limit is the same under wider ones. -/
theorem resolve_within {ctx : Context} {code : Code} {scope : Scope}
    {locals : List (String × Value)} {m : Memory} (widens : ctx.options.Widens wide)
    (granted : ∀ s₀ ctx' id index s, Gives (openRoot scope locals) (.empty, m) () s₀ →
      Leads (Analysis.invoke depth) code.steps.toArray (.path ctx 0 0) s₀ (.path ctx' id index) s →
        Granted (Analysis.invoke depth) code.steps.toArray ctx' id index s)
    (same : ∀ c : MethodCall, c.depth = depth → Raises ctx code scope locals m c →
      c.SameWithin other wide) :
    (Analysis.resolve other (ctx.within wide) code scope locals).run m =
      (Analysis.resolve (Analysis.invoke depth) ctx code scope locals).run m := by
  obtain ⟨s, ends, s', opened, walks, run⟩ :=
    resolve_walks (Analysis.invoke depth) ctx code scope locals m
  obtain ⟨r, others, r', opened', walks', run'⟩ :=
    resolve_walks other (ctx.within wide) code scope locals m
  obtain ⟨-, rfl⟩ := opened.unique opened'
  have passable : Walks (Analysis.invoke depth) code.steps.toArray
      (Passable depth other wide code.steps.toArray) (.path ctx 0 0) s ends s' := by
    refine walks.of_leads fun ctx' id index s₁ leads => ?_
    have options : ctx'.options = ctx.options := leads.context.2
    refine ⟨options ▸ widens, granted s ctx' id index s₁ opened leads, ?_⟩
    rintro c rfl issues
    exact same c rfl ⟨s, ctx', id, index, s₁, opened, leads, issues⟩
  have root : 0 < s.1.size := by
    rw [(openRoot_bound opened).apart.size]
    exact Nat.zero_lt_one
  obtain ⟨rfl, rfl⟩ := (passable.within root).unique walks'
  rw [run, run']

end Walks

/-! ## Calls -/

namespace MethodCall

/-- The call is not cut off for the number of calls that are being followed: its results are kept,
or it is being followed already, or one more call may be followed. -/
def Admitted (c : MethodCall) : Prop :=
  c.memory.find? c.key = none → c.key.call ∉ c.memory.stack → c.depth ≠ 0

/-- Neither the call nor one in the bodies that are followed is cut off for the number of calls
that are being followed, and no path in these bodies is refused a branch. -/
structure Unlimited (c : MethodCall) : Prop where
  admitted : ∀ c', Relation.ReflTransGen Enters c c' → c'.Admitted
  granted : ∀ c' depth code m s₀ ctx id index s, Relation.ReflTransGen Enters c c' →
    c'.Follows depth code m →
    Gives (openRoot c'.scope c'.locals) (.empty, m.push c'.key.call) () s₀ →
    Leads (Analysis.invoke depth) code.steps.toArray (.path c'.ctx 0 0) s₀ (.path ctx id index) s →
      Granted (Analysis.invoke depth) code.steps.toArray ctx id index s

theorem Unlimited.enters {c c' : MethodCall} (h : c.Unlimited) (enters : c.Enters c') :
    c'.Unlimited where
  admitted c'' reached := h.admitted c'' (.head enters reached)
  granted c'' depth code m s₀ ctx id index s reached :=
    h.granted c'' depth code m s₀ ctx id index s (.head enters reached)

/-- A call that meets no limit is answered alike under wider ones. -/
theorem Unlimited.invoke_eq {wide : AnalysisOptions} (depth : Nat) :
    ∀ {c : MethodCall}, c.depth = depth → c.Unlimited → c.ctx.options.Widens wide →
      ∀ {deeper : Nat}, depth ≤ deeper → c.SameWithin (Analysis.invoke deeper) wide := by
  induction depth with
  | zero =>
    intro c deep h widens deeper _
    unfold SameWithin
    rw [deep]
    cases kept : c.memory.find? c.key with
    | some values =>
      rw [Analysis.invoke_of_kept kept]
      exact Analysis.invoke_of_kept kept
    | none =>
      have entered : c.key.call ∈ c.memory.stack := by
        by_contra new
        exact h.admitted c .refl kept new deep
      rw [Analysis.invoke_zero kept]
      cases deeper with
      | zero => exact Analysis.invoke_zero kept
      | succ deeper => exact Analysis.invoke_of_entered kept entered
  | succ depth ih =>
    intro c deep h widens deeper deep'
    obtain ⟨deeper, rfl⟩ : ∃ n, deeper = n + 1 := ⟨deeper - 1, by omega⟩
    let c' : MethodCall := { c with ctx := c.ctx.within wide }
    unfold SameWithin
    rw [deep]
    cases kept : c.memory.find? c.key with
    | some values =>
      rw [Analysis.invoke_of_kept kept]
      exact Analysis.invoke_of_kept kept
    | none =>
      by_cases entered : c.key.call ∈ c.memory.stack
      · rw [Analysis.invoke_of_entered kept entered]
        exact Analysis.invoke_of_entered kept entered
      have anew : (Analysis.invoke (deeper + 1) c'.ctx c.id c.receiver c.arguments c.span).run
          c.memory = _ := Analysis.invoke_of_new kept entered
      rw [Analysis.invoke_of_new kept entered, anew]
      rcases body : (Analysis.body c.ctx.symbols c.id).run c.memory with ⟨_ | code, m⟩
      · rw [Analysis.follow_of_none _ _ _ body]
        exact Analysis.follow_of_none _ _ _ body
      · have follows : c.Follows depth code m := ⟨deep, kept, entered, body⟩
        have alike : (Analysis.resolve (Analysis.invoke deeper) c'.ctx code c.scope c.locals).run
            (m.push c.key.call) = _ :=
          resolve_within widens
            (fun s₀ ctx id index s => h.granted c depth code m s₀ ctx id index s .refl follows)
            fun inner deep'' raised => by
              have enters : c.Enters inner := ⟨by omega, kept, entered, code, m, body, raised⟩
              have options : inner.ctx.options = c.ctx.options := raised.context.2
              exact ih deep'' (h.enters enters) (options ▸ widens) (by omega)
        rcases resolved : (Analysis.resolve (Analysis.invoke depth) c.ctx code c.scope c.locals).run
          (m.push c.key.call) with ⟨r, m'⟩
        rw [follow_of_resolved body resolved]
        exact follow_of_resolved (c := c') body (alike.trans resolved)

end MethodCall

/-! ## Looking for limits -/

theorem forall_gives_iff {α : Type} {x : Walk α} {s : State} {P : α → Prop} :
    (∀ v s', Gives x s v s' → P v) ↔ P (outcome x s).1 := by
  constructor
  · intro h
    exact h _ _ (gives_outcome x s)
  · intro h v s' given
    obtain ⟨rfl, -⟩ := given.unique (gives_outcome x s)
    exact h

instance decidableRoomy (invoke : Invoke) (ctx : Context) (id : Nat) (instruction : Step)
    (s : State) : Decidable (Roomy invoke ctx id instruction s) :=
  match h : instruction.instr with
  | .gotoIf _ _ _ =>
    decidable_of_iff (s.1.size < ctx.options.maxBranches) (by rw [Roomy, h])
  | .call _ callee arguments =>
    let values := (outcome (Walk.results invoke ctx id instruction.span callee arguments) s).1
    decidable_of_iff (values.length ≤ 1 ∨ s.1.size + values.length ≤ ctx.options.maxBranches)
      (by rw [Roomy, h]; exact (forall_gives_iff (P := fun values : List Value =>
        values.length ≤ 1 ∨ s.1.size + values.length ≤ ctx.options.maxBranches)).symm)
  | .const _ _ | .unary _ _ _ | .binary _ _ _ _ | .goto _ | .load _ _ | .member _ _ _
  | .index _ _ _ | .store _ _ | .ret _ => isTrue (by rw [Roomy, h]; trivial)

instance decidableGranted (invoke : Invoke) (steps : Array Step) (ctx : Context) (id index : Nat)
    (s : State) : Decidable (Granted invoke steps ctx id index s) :=
  match h : steps[index]? with
  | none => isTrue fun instruction here => by rw [h] at here; cases here
  | some instruction =>
    decidable_of_iff ((s.1.branch? id).elim 0 (·.visits index) = 0 →
      Roomy invoke ctx id instruction (s.visit id index)) (by simp [Granted, h])

/-- The call that a path makes where it stands, if it makes one. -/
def MethodCall.at? (depth : Nat) (steps : Array Step) (ctx : Context) (id index : Nat)
    (s : State) : Option MethodCall :=
  match steps[index]? with
  | some ⟨.call _ callee arguments, span⟩ =>
    let arrived := outcome (arrive id index) s
    if arrived.1 then
      let callee := outcome (operand id span callee) arrived.2
      let arguments := outcome (arguments.mapM (operand id span)) callee.2
      let ctx := ctx.enter arguments.2.1
      match (Analysis.request ctx callee.1 arguments.1 span).run arguments.2.2 with
      | (.enter method receiver, m) => some ⟨depth, ctx, method, receiver, arguments.1, span, m⟩
      | (.answered _, _) => none
    else none
  | _ => none

theorem Issues.at?_eq {steps : Array Step} {ctx : Context} {id index : Nat} {s : State}
    {c : MethodCall} (issues : Issues steps ctx id index s c) :
    MethodCall.at? c.depth steps ctx id index s = some c := by
  obtain ⟨result, callee, arguments, v, s₀, s₁, s₂, here, arrived, read, reads, entered, asked⟩ :=
    issues
  obtain ⟨first, same⟩ := arrived.unique (gives_outcome (arrive id index) s)
  subst same
  obtain ⟨rfl, same⟩ := read.unique (gives_outcome (operand id c.span callee) _)
  subst same
  obtain ⟨args, same⟩ := reads.unique (gives_outcome (arguments.mapM (operand id c.span)) _)
  subst same
  rw [MethodCall.at?, here]
  dsimp only
  rw [← first, if_pos rfl, ← args, ← entered, asked]

/-- Walks the task and looks at wherever it comes to: what is left behind, if all is found in
order. -/
def Task.inspect? (invoke : Invoke) (steps : Array Step)
    (fine : Context → Nat → Nat → State → Bool) : Nat → Task → State → Option State
  | 0, _, _ => none
  | fuel + 1, path ctx id index, s =>
    if fine ctx id index s then
      let (next, s) := outcome (step invoke ctx steps id index) s
      match next with
      | .next index => inspect? invoke steps fine fuel (path ctx id index) s
      | .stop t v => some (outcome (finish id t v) s).2
      | .split starts => inspect? invoke steps fine fuel (all ctx starts) s
      | .spread slot values index =>
        inspect? invoke steps fine fuel (each ctx id slot values index) s
    else none
  | _ + 1, all _ [], s => some s
  | fuel + 1, all ctx ((id, index) :: starts), s =>
    (inspect? invoke steps fine fuel (path ctx id index) s).bind
      (inspect? invoke steps fine fuel (all ctx starts))
  | _ + 1, each _ _ _ [] _, s => some s
  | fuel + 1, each ctx id slot (v :: values) index, s =>
    let bound := (outcome (bindSlot s.1.size slot v) (s.1.child id, s.2)).2
    (inspect? invoke steps fine fuel (path (ctx.await values) s.1.size index) bound).bind
      (inspect? invoke steps fine fuel (each ctx id slot values index))

theorem Task.walks_of_inspect {invoke : Invoke} {steps : Array Step}
    {fine : Context → Nat → Nat → State → Bool} {fuel : Nat} {task : Task} {s s' : State}
    (h : task.inspect? invoke steps fine fuel s = some s') :
    ∃ ends,
      Walks invoke steps (fun ctx id index s => fine ctx id index s = true) task s ends s' := by
  induction fuel generalizing task s s' with
  | zero => cases h
  | succ fuel ih =>
    cases task with
    | path ctx id index =>
      rw [inspect?] at h
      split at h
      · next good =>
        have done := gives_outcome (step invoke ctx steps id index) s
        generalize outcome (step invoke ctx steps id index) s = r at h done
        obtain ⟨next, s₁⟩ := r
        cases next with
        | stop t v =>
          cases h
          exact ⟨_, .stop good done (gives_outcome _ _)⟩
        | next target =>
          obtain ⟨ends, rest⟩ := ih h
          exact ⟨ends, .onward good done rfl rest⟩
        | split starts =>
          obtain ⟨ends, rest⟩ := ih h
          exact ⟨ends, .onward good done rfl rest⟩
        | spread slot values target =>
          obtain ⟨ends, rest⟩ := ih h
          exact ⟨ends, .onward good done rfl rest⟩
      · cases h
    | all ctx starts =>
      cases starts with
      | nil => cases h; exact ⟨[], .allNil⟩
      | cons start starts =>
        obtain ⟨s₁, first, later⟩ := Option.bind_eq_some_iff.1 h
        obtain ⟨ends, first⟩ := ih first
        obtain ⟨more, later⟩ := ih later
        exact ⟨_, .allCons first later⟩
    | each ctx id slot values index =>
      cases values with
      | nil => cases h; exact ⟨[], .eachNil⟩
      | cons v values =>
        obtain ⟨s₁, first, later⟩ := Option.bind_eq_some_iff.1 h
        obtain ⟨ends, first⟩ := ih first
        obtain ⟨more, later⟩ := ih later
        exact ⟨_, .eachCons (gives_outcome _ _) first later⟩

/-- Walks through code from a fresh root, and finds that no path is refused a branch and that
`fine` says so of all calls. -/
def inspects (fuel depth : Nat) (fine : MethodCall → Bool) (ctx : Context) (code : Code)
    (scope : Scope) (locals : List (String × Value)) (m : Memory) : Bool :=
  let invoke := Analysis.invoke depth
  let steps := code.steps.toArray
  let s := (outcome (openRoot scope locals) (.empty, m)).2
  ((Task.path ctx 0 0).inspect? invoke steps (fun ctx id index s =>
    decide (Granted invoke steps ctx id index s) &&
      (MethodCall.at? depth steps ctx id index s).all fine) fuel s).isSome

section Inspects

variable {fuel depth : Nat} {fine : MethodCall → Bool} {ctx : Context} {code : Code}
  {scope : Scope} {locals : List (String × Value)} {m : Memory}

theorem inspects_spec (h : inspects fuel depth fine ctx code scope locals m = true) {s₀ : State}
    (opened : Gives (openRoot scope locals) (.empty, m) () s₀) {ctx' : Context} {id index : Nat}
    {s : State} (leads : Leads (Analysis.invoke depth) code.steps.toArray (.path ctx 0 0) s₀
      (.path ctx' id index) s) :
    Granted (Analysis.invoke depth) code.steps.toArray ctx' id index s ∧
      ∀ c, MethodCall.at? depth code.steps.toArray ctx' id index s = some c → fine c = true := by
  obtain ⟨-, rfl⟩ := opened.unique (gives_outcome _ _)
  obtain ⟨s', found⟩ := Option.isSome_iff_exists.1 h
  obtain ⟨ends, walks⟩ := Task.walks_of_inspect found
  obtain ⟨granted, calls⟩ := (Bool.and_eq_true _ _).mp (leads.holds walks)
  refine ⟨of_decide_eq_true granted, fun c call => ?_⟩
  rw [call] at calls
  exact calls

theorem raised_of_inspects (h : inspects fuel depth fine ctx code scope locals m = true)
    {c : MethodCall} (deep : c.depth = depth) (raised : Raises ctx code scope locals m c) :
    fine c = true := by
  subst deep
  obtain ⟨s₀, ctx', id, index, s, opened, leads, issues⟩ := raised
  exact (inspects_spec h opened leads).2 c issues.at?_eq

end Inspects

namespace MethodCall

/-- Follows the call and those inside, and finds that no limit is met. -/
def meetsNone (fuel : Nat) : Nat → MethodCall → Bool
  | depth, c =>
    (c.memory.find? c.key).isSome || decide (c.key.call ∈ c.memory.stack) ||
      match depth with
      | 0 => false
      | depth + 1 =>
        match (Analysis.body c.ctx.symbols c.id).run c.memory with
        | (none, _) => true
        | (some code, m) =>
          inspects fuel depth (meetsNone fuel depth) c.ctx code c.scope c.locals
            (m.push c.key.call)

variable {fuel depth : Nat} {c c' : MethodCall} {code : Code} {m : Memory}

theorem admitted_of_meetsNone (h : meetsNone fuel c.depth c = true) : c.Admitted := by
  intro unknown entered deep
  rw [deep, meetsNone, unknown] at h
  simp [entered] at h

theorem inspects_of_meetsNone (h : meetsNone fuel c.depth c = true)
    (follows : c.Follows depth code m) :
    inspects fuel depth (meetsNone fuel depth) c.ctx code c.scope c.locals
      (m.push c.key.call) = true := by
  rw [follows.depth, meetsNone, follows.unknown] at h
  simpa [follows.entered, follows.body] using h

theorem enters_of_meetsNone (h : meetsNone fuel c.depth c = true) (enters : c.Enters c') :
    meetsNone fuel c'.depth c' = true := by
  obtain ⟨code, m, body, raised⟩ := enters.raised
  have follows : c.Follows c'.depth code m :=
    ⟨enters.depth, enters.unknown, enters.entered, body⟩
  exact raised_of_inspects (inspects_of_meetsNone h follows) rfl raised

/-- A call of which nothing is found to meet a limit meets none. -/
theorem unlimited_of_meetsNone (h : meetsNone fuel c.depth c = true) : c.Unlimited := by
  have reaches {c' : MethodCall} (reached : Relation.ReflTransGen Enters c c') :
      meetsNone fuel c'.depth c' = true := by
    induction reached with
    | refl => exact h
    | tail _ enters ih => exact enters_of_meetsNone ih enters
  refine ⟨fun c' reached => admitted_of_meetsNone (reaches reached), ?_⟩
  intro c' depth code m s₀ ctx id index s reached follows opened leads
  exact (inspects_spec (inspects_of_meetsNone (reaches reached) follows) opened leads).1

end MethodCall

/-! ## Queries -/

namespace Query

/-- What a query is answered with. -/
inductive Answer
  | code (code? : Option Code)
  | resolution (r : Resolution)
  | type (type : Ty)
  | typeAt (type? : Option Ty)

/-- Asks an analysis the query. -/
def ask (ctx : Context) : Query → Analysis Answer
  | body id => return .code (← Analysis.body ctx.symbols id)
  | resolveMethod id => return .resolution (← Analysis.resolveMethod ctx id)
  | returnType id => return .type (← Analysis.returnType ctx id)
  | typeAt id span => return .typeAt (← Analysis.typeAt ctx id span)
  | resolveCode code scope => return .resolution (← Analysis.resolveCode ctx code scope)
  | typeOfExpression e scope => return .type (← Analysis.typeOfExpression ctx e scope)

/-- No limit is met in the query: wherever it comes to, in its own code or in a body that it
follows a call into, no path is refused a branch, and no call is cut off for the number of calls
that are being followed. -/
structure Unlimited (ctx : Context) (m : Memory) (q : Query) : Prop where
  granted : ∀ invoke steps ctx' id index s,
    q.Reaches ctx m invoke steps (.path ctx' id index) s → Granted invoke steps ctx' id index s
  admitted : ∀ e c, q.opens? ctx m = some e → e.Makes ctx c → c.Admitted

variable {ctx : Context} {wide : AnalysisOptions} {m : Memory} {q : Query} {e : Entry}

theorem Unlimited.call {c : MethodCall} (h : q.Unlimited ctx m) (opens : q.opens? ctx m = some e)
    (makes : e.Makes ctx c) : c.Unlimited := by
  obtain ⟨outer, deep, raised, reached⟩ := makes
  refine ⟨fun c' further => ?_, fun c' depth code m s₀ ctx' id index s further follows opened => ?_⟩
  · exact h.admitted e c' opens ⟨outer, deep, raised, reached.trans further⟩
  · intro leads
    have makes' : e.Makes ctx c' := ⟨outer, deep, raised, reached.trans further⟩
    exact h.granted _ _ ctx' id index s (.inner opens makes' follows opened leads)

/-- Follows the query and finds that no limit is met. -/
def meetsNone (fuel : Nat) (ctx : Context) (m : Memory) (q : Query) : Bool :=
  match q.opens? ctx m with
  | none => true
  | some e =>
    let depth := ctx.options.maxCallDepth - e.memory.stack.length
    inspects fuel depth (MethodCall.meetsNone fuel depth) ctx e.code e.scope
      (ctx.symbols.scopeVariables e.scope) e.memory

theorem unlimited_of_meetsNone (fuel : Nat) (h : q.meetsNone fuel ctx m = true) :
    q.Unlimited ctx m := by
  have inside {e : Entry} (opens : q.opens? ctx m = some e) :
      inspects fuel (ctx.options.maxCallDepth - e.memory.stack.length)
        (MethodCall.meetsNone fuel (ctx.options.maxCallDepth - e.memory.stack.length)) ctx e.code
          e.scope (ctx.symbols.scopeVariables e.scope) e.memory = true := by
    rw [meetsNone, opens] at h
    exact h
  have first {e : Entry} {outer : MethodCall} (opens : q.opens? ctx m = some e)
      (deep : outer.depth = ctx.options.maxCallDepth - e.memory.stack.length)
      (raised : Raises ctx e.code e.scope (ctx.symbols.scopeVariables e.scope) e.memory outer) :
      outer.Unlimited := by
    have fine := raised_of_inspects (inside opens) deep raised
    rw [← deep] at fine
    exact MethodCall.unlimited_of_meetsNone fine
  constructor
  · intro invoke steps ctx' id index s reaches
    cases reaches with
    | outer opens opened leads => exact (inspects_spec (inside opens) opened leads).1
    | inner opens makes follows opened leads =>
      obtain ⟨outer, deep, raised, reached⟩ := makes
      exact (first opens deep raised).granted _ _ _ _ _ _ _ _ _ reached follows opened leads
  · intro e c opens makes
    obtain ⟨outer, deep, raised, reached⟩ := makes
    exact (first opens deep raised).admitted c reached

/-- A query that meets no limit resolves its code as it does under wider ones. -/
theorem Unlimited.resolution_eq (h : q.Unlimited ctx m) (widens : ctx.options.Widens wide)
    (opens : q.opens? ctx m = some e) : e.resolution (ctx.within wide) = e.resolution ctx := by
  refine resolve_within widens (fun s₀ ctx' id index s opened leads => ?_) fun c deep raised => ?_
  · exact h.granted _ _ ctx' id index s (.outer opens opened leads)
  · have options : c.ctx.options = ctx.options := raised.context.2
    have deeper := widens.maxCallDepth
    refine (h.call opens ⟨c, deep, raised, .refl⟩).invoke_eq c.depth rfl (options ▸ widens) ?_
    rw [deep]
    exact Nat.sub_le_sub_right deeper _

theorem Unlimited.resolveMethod_eq {id : Nat} (h : (resolveMethod id).Unlimited ctx m)
    (widens : ctx.options.Widens wide) :
    (Analysis.resolveMethod (ctx.within wide) id).run m =
      (Analysis.resolveMethod ctx id).run m := by
  cases opens : (resolveMethod id).opens? ctx m with
  | none =>
    rw [resolveMethod_of_none opens]
    exact resolveMethod_of_none opens
  | some e =>
    have same := h.resolution_eq widens opens
    rw [resolveMethod_of_entry opens, ← same]
    exact resolveMethod_of_entry opens

theorem resolveCode_run (ctx : Context) (code : Code) (scope : Scope) (m : Memory) :
    (Analysis.resolveCode ctx code scope).run m = Entry.resolution ctx ⟨code, scope, m⟩ := by
  rw [Analysis.resolveCode, Analysis.run_bind_of_eq (x := get) rfl]
  rfl

/-- Queries about a method resolve its code. -/
theorem Unlimited.ofMethod (h : q.Unlimited ctx m) (id : Nat)
    (same : q.opens? ctx m = (resolveMethod id).opens? ctx m) :
    (resolveMethod id).Unlimited ctx m where
  granted invoke steps ctx' k index s reaches := by
    refine h.granted invoke steps ctx' k index s ?_
    cases reaches with
    | outer opens opened leads => exact .outer (same.trans opens) opened leads
    | inner opens makes follows opened leads =>
      exact .inner (same.trans opens) makes follows opened leads
  admitted e c opens := h.admitted e c (same.trans opens)

/-- Limits that a query does not meet might as well be wider: the answer is the same, the memory
that is left behind is the same, and so are all branches of the resolution and the order in which
paths end on them. -/
theorem limits_change_nothing {t : SymbolTable} {narrow wide : AnalysisOptions} {m : Memory}
    {q : Query} (unlimited : q.Unlimited (.outer t narrow) m) (widens : narrow.Widens wide) :
    (q.ask (.outer t wide)).run m = (q.ask (.outer t narrow)).run m ∧
      q.opens? (.outer t wide) m = q.opens? (.outer t narrow) m ∧
      ∀ e, q.opens? (.outer t narrow) m = some e →
        e.resolution (.outer t wide) = e.resolution (.outer t narrow) := by
  refine ⟨?_, by cases q <;> rfl, fun e opens => unlimited.resolution_eq widens opens⟩
  cases q with
  | body id => rfl
  | resolveMethod id =>
    have same : (Analysis.resolveMethod (.outer t wide) id).run m = _ :=
      unlimited.resolveMethod_eq widens
    rw [ask, ask, StateT.run_bind, StateT.run_bind, same]
  | returnType id =>
    have same : (Analysis.resolveMethod (.outer t wide) id).run m = _ :=
      (unlimited.ofMethod id rfl).resolveMethod_eq widens
    rw [ask, ask, StateT.run_bind, StateT.run_bind, returnType_run, returnType_run, same]
    rfl
  | typeAt id span =>
    have same : (Analysis.resolveMethod (.outer t wide) id).run m = _ :=
      (unlimited.ofMethod id rfl).resolveMethod_eq widens
    rw [ask, ask, Analysis.typeAt, Analysis.typeAt, bind_assoc, bind_assoc, StateT.run_bind,
      StateT.run_bind, same]
  | resolveCode code scope =>
    have same : Entry.resolution (.outer t wide) ⟨code, scope, m⟩ = _ :=
      unlimited.resolution_eq widens rfl
    rw [ask, ask, StateT.run_bind, StateT.run_bind, resolveCode_run, resolveCode_run, same]
  | typeOfExpression x scope =>
    cases lowers : x.toCode with
    | error fault =>
      rw [ask, ask, Analysis.typeOfExpression_of_error scope lowers,
        Analysis.typeOfExpression_of_error scope lowers]
    | ok code =>
      have opens : (typeOfExpression x scope).opens? (.outer t narrow) m =
          some ⟨code, scope, m⟩ := by
        rw [opens?, lowers]
        rfl
      have same : Entry.resolution (.outer t wide) ⟨code, scope, m⟩ = _ :=
        unlimited.resolution_eq widens opens
      rw [ask, ask, StateT.run_bind, StateT.run_bind, typeOfExpression_run lowers,
        typeOfExpression_run lowers, same]

end Query

/-! ### A query under tight limits -/

/-- A function that returns one of two values, and a recursive one that calls it. -/
def boundedText : String :=
  "fn pick(c) \x7b\n  if c \x7b return 1 \x7d\n  return \"s\"\n\x7d\n" ++
    "fn pass(c) \x7b\n  if c \x7b return pass(true) \x7d\n  return pick(c)\n\x7d\n"

def bounded : Compilation := ((Compilation.ofText .standard boundedText).toOption).getD default

/-- As many branches as the recursive function needs, and as many calls. -/
def tight : AnalysisOptions := ⟨.symmetric, 3, 8⟩

/-- The recursive function forks, follows calls two levels deep, and is cut off where it recurs; it
takes all branches that it may have, and nothing changes if it may have more. -/
theorem Query.limits_change_nothing_tight :
    let t := bounded.symbols
    let q := Query.resolveMethod 1
    q.Unlimited (.outer t tight) .empty ∧ tight.Widens .standard ∧
      (q.ask (.outer t .standard)).run .empty = (q.ask (.outer t tight)).run .empty ∧
      ((Analysis.resolveMethod (.outer t tight) 1).run .empty).1.arena.size = tight.maxBranches ∧
      ((Analysis.resolveMethod (.outer t tight) 1).run .empty).2.cutoffs ≠ 0 := by
  intro t q
  obtain ⟨meets, full, cut⟩ : q.meetsNone 100 (.outer t tight) .empty = true ∧
      ((Analysis.resolveMethod (.outer t tight) 1).run .empty).1.arena.size = tight.maxBranches ∧
        ((Analysis.resolveMethod (.outer t tight) 1).run .empty).2.cutoffs ≠ 0 := by
    have row : TokenRow.ofText boundedText = _ :=
      TokenRow.ofText_of_eq_append (by unfold boundedText; with_reducible rfl)
    dsimp only [t, q]
    rw [bounded, Compilation.ofText, Module.ofText, row]
    decide +kernel
  have unlimited : q.Unlimited (.outer t tight) .empty := Query.unlimited_of_meetsNone 100 meets
  have widens : tight.Widens .standard := ⟨rfl, by decide, by decide⟩
  exact ⟨unlimited, widens, (Query.limits_change_nothing unlimited widens).1, full, cut⟩

end PathTyping
