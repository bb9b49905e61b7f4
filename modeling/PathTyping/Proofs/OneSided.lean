import PathTyping.Proofs.Visits
import PathTyping.Proofs.Callers
import PathTyping.Proofs.Budget
import PathTyping.Proofs.Limits

/-!
# One side of each jump

In the mode that explores one side only, a jump that depends on a condition adds at most one branch,
and a call adds none if it has one value.  Whether it has depends on the callee, on what is kept of
earlier calls, and on the calls that are made in the callee in its turn.  So that all of them have
one value is an induction on how many calls may still be followed, and for each of these an
induction on the walk through the body, which finds one value kept for each call.

1. A walk in which calls give one value follows one path: it ends once, and each branch comes from
   the one that was made before it (`Walks.straight`).
2. A resolution with one end has one result (`Analysis.resultsOf_of_straight`), so each call gives
   one value and keeps one (`Analysis.oneValued`).
3. So it is in each resolution that an analysis comes to, those of the bodies that it enters
   included (`one_path_followed`).
-/

namespace PathTyping

open Walk

/-! ## One path -/

/-- Each branch comes from the one that was made before it. -/
def Arena.InLine (a : Arena) : Prop := ∀ k p, a.ComesFrom k p → k = p + 1

theorem Arena.InLine.modify {a : Arena} (h : a.InLine) (id : Nat) {f : Branch → Branch}
    (keeps : ∀ b, (f b).parent = b.parent) : (a.modify id f).InLine := fun k p comes =>
  h k p ((comesFrom_modify keeps).1 comes)

theorem Arena.InLine.child {a : Arena} {id : Nat} (h : a.InLine) (last : id + 1 = a.size) :
    (a.child id).InLine := fun k p comes => by
  rcases comesFrom_child.1 comes with old | ⟨rfl, rfl⟩
  · exact h k p old
  · exact last.symm

/-- There is one path, on the branch that was made last. -/
def Task.Lone (a : Arena) : Task → Prop
  | path _ id _ => id + 1 = a.size
  | all _ starts => ∃ start, starts = [start] ∧ start.1 + 1 = a.size
  | each _ _ _ _ _ => False

/-- One side of each jump is explored, and calls are not continued with several values. -/
def OneWay (invoke : Invoke) (steps : Array Step) (ctx : Context) (id index : Nat) (s : State) :
    Prop :=
  ctx.options.forkMode = .fallthroughOnly ∧ SpreadsAtMost 1 invoke steps ctx id index s

section Walks

variable {invoke : Invoke} {steps : Array Step} {ctx : Context} {id index : Nat} {s s' : State}
  {task : Task} {next : Next} {ends : List Nat}

/-- One path stays one path. -/
theorem step_lone (oneWay : OneWay invoke steps ctx id index s) (last : id + 1 = s.1.size)
    (line : s.1.InLine) (done : Gives (step invoke ctx steps id index) s next s') :
    s'.1.InLine ∧ ∀ task, next.task? ctx id = some task → task.Lone s'.1 := by
  obtain ⟨mode, few⟩ := oneWay
  obtain ⟨f, marks, goes⟩ := step_marks (show id < s.1.size by omega) done
  have line' := line.modify id marks.parent
  have last' : id + 1 = (s.1.modify id f).size := by rw [Arena.size_modify, last]
  cases next with
  | next target =>
    rw [show s'.1 = s.1.modify id f from goes]
    exact ⟨line', by rintro _ ⟨⟩; exact last'⟩
  | stop t v =>
    rw [show s'.1 = s.1.modify id f from goes]
    exact ⟨line', nofun⟩
  | split starts =>
    obtain ⟨-, goes⟩ := goes
    rw [mode] at goes
    obtain ⟨made, i, rfl⟩ := goes
    rw [made]
    exact ⟨line'.child last', by rintro _ ⟨⟩; exact ⟨_, rfl, (Arena.size_child _ id).symm⟩⟩
  | spread slot values target => exact absurd (few _ _ _ _ done) (Nat.not_le.2 goes.2.1)

theorem finish_line {t : Termination} {v : Value} {u : Unit} (line : s.1.InLine)
    (finished : Gives (finish id t v) s u s') : s'.1.InLine := by
  obtain ⟨w, s₁, made, finished⟩ := gives_bind_iff.1 finished
  obtain ⟨rfl, -⟩ := gives_lift_iff.1 made
  obtain rfl := gives_modify_iff.1 finished
  exact line.modify id fun _ => rfl

/-- A walk of one path ends once. -/
theorem Walks.straight (walks : Walks invoke steps (OneWay invoke steps) task s ends s')
    (lone : task.Lone s.1) (line : s.1.InLine) : s'.1.InLine ∧ ∃ e, ends = [e] := by
  induction walks with
  | onward oneWay done goes _ ih =>
    obtain ⟨line', onward⟩ := step_lone oneWay lone line done
    exact ih (onward _ goes) line'
  | @stop ctx id index s s₁ s' t v oneWay done finished =>
    exact ⟨finish_line (step_lone oneWay lone line done).1 finished, id, rfl⟩
  | allNil => obtain ⟨start, none_, -⟩ := lone; cases none_
  | allCons first rest ih _ =>
    obtain ⟨start, only, last⟩ := lone
    cases only
    cases rest
    rw [List.append_nil]
    exact ih last line
  | eachNil => exact lone.elim
  | eachCons _ _ _ _ _ => exact lone.elim

theorem memory_of_arrive {first : Bool} (arrived : Gives (arrive id index) s first s') :
    s'.2 = s.2 := (congrArg Prod.snd arrived).symm

/-- A step comes back to its instruction, or executes it. -/
theorem step_of_found {instruction : Step} (here : steps[index]? = some instruction)
    (done : Gives (step invoke ctx steps id index) s next s') :
    next = .stop .loopCutoff .any ∨ ∃ s₀, Gives (arrive id index) s true s₀ ∧
      Gives (execute invoke ctx id index instruction) s₀ next s' := by
  unfold step at done
  rw [here] at done
  obtain ⟨first, s₀, arrived, done⟩ := gives_bind_iff.1 done
  cases first with
  | true => exact .inr ⟨s₀, arrived, done⟩
  | false =>
    obtain ⟨_, _, -, done⟩ := gives_bind_iff.1 done
    obtain ⟨_, _, -, done⟩ := gives_bind_iff.1 done
    exact .inl (gives_pure_iff.1 done).1

end Walks

/-- The path goes on behind the instruction, on its own branch or on a new one, or has executed it
before. -/
inductive Next.PassesBy (index : Nat) : Next → Prop
  | here : PassesBy index (.next (index + 1))
  | child (id : Nat) : PassesBy index (.split [(id, index + 1)])
  | again : PassesBy index (.stop .loopCutoff .any)

/-- A jump that depends on a condition is not taken. -/
theorem step_passesBy {invoke : Invoke} {steps : Array Step} {ctx : Context} {id index : Nat}
    {s s' : State} {next : Next} {target : Nat} {condition : Slot} {expected : Bool} {span : Span}
    (mode : ctx.options.forkMode = .fallthroughOnly)
    (here : steps[index]? = some ⟨.gotoIf target condition expected, span⟩)
    (done : Gives (step invoke ctx steps id index) s next s') : next.PassesBy index := by
  rcases step_of_found here done with rfl | ⟨s₀, -, executed⟩
  · exact .again
  obtain ⟨_, _, -, forked⟩ := gives_bind_iff.1 executed
  obtain ⟨a, _, -, forked⟩ := gives_bind_iff.1 forked
  split at forked
  · exact (gives_pure_iff.1 forked).1 ▸ .here
  · rw [mode] at forked
    obtain ⟨fall, _, -, forked⟩ := gives_bind_iff.1 forked
    exact (gives_pure_iff.1 forked).1 ▸ .child fall

/-- The resolution ends once, and no branch has two that come from it. -/
structure Resolution.Straight (r : Resolution) : Prop where
  ended : ∃ e, r.terminals = [e]
  unforked : ∀ p k k', r.arena.ComesFrom k p → r.arena.ComesFrom k' p → k = k'

/-! ## One value for each call -/

/-- One value is kept for each call whose results are kept. -/
def Memory.Single (m : Memory) : Prop := ∀ p ∈ m.results, ∃ v, p.2 = [v]

namespace Memory

variable {m : Memory}

theorem inert_single : Memory.Inert Memory.Single := ⟨fun h _ => h, fun h _ => h⟩

theorem Single.found {key : MemoKey} {values : List Value} (h : m.Single)
    (kept : m.find? key = some values) : ∃ v, values = [v] := h _ (Assoc.mem_of_find? kept)

theorem Single.body (h : m.Single) (t : SymbolTable) (id : Nat) :
    ((Analysis.body t id).run m).2.Single := by
  unfold Single
  rw [(Analysis.body_keeps t id m).1]
  exact h

theorem Single.remember (h : m.Single) (key : MemoKey) (v : Value) :
    (m.remember key [v]).Single := fun p hp =>
  (Assoc.mem_insert hp).elim (fun new => ⟨v, congrArg Prod.snd new⟩) (h p)

end Memory

theorem Value.length_distinctFrom_le (seen values : List Value) :
    (distinctFrom seen values).length ≤ values.length := by
  induction values generalizing seen with
  | nil => exact Nat.le_refl 0
  | cons v rest ih =>
    rw [distinctFrom]
    split
    · exact Nat.le_succ_of_le (ih seen)
    · exact Nat.succ_le_succ (ih _)

theorem Resolution.length_returnsOf_le (ends : List Branch) :
    (returnsOf ends).length ≤ ends.length := by
  unfold returnsOf
  split
  · exact List.length_filterMap_le _ _
  · exact (List.length_filterMap_le _ _).trans (List.length_filter_le _ _)

/-- One value is given, and one is kept for each call. -/
def Analysis.GivesOne (given : List Value × Memory) : Prop :=
  (∃ v, given.1 = [v]) ∧ given.2.Single

/-- A call from which as many others may be followed gives one value and keeps one, if it is made
where one side of each jump is explored and one value is kept for each call. -/
def OneValued (depth : Nat) : Prop :=
  ∀ c : MethodCall, c.depth = depth → c.ctx.options.forkMode = .fallthroughOnly →
    c.memory.Single → Analysis.GivesOne (c.results, c.after)

section Calls

variable {depth : Nat} {steps : Array Step} {ctx : Context} {id index : Nat} {s s' s₁ : State}
  {task task' : Task} {span : Span} {m : Memory}

/-- Whatever is called, be it a method or not, there is one result. -/
theorem results_single (calls : OneValued depth) (mode : ctx.options.forkMode = .fallthroughOnly)
    (h : s.2.Single) {callee : Slot} {arguments : List Slot} {values : List Value}
    (given : Gives (Walk.results (Analysis.invoke depth) ctx id span callee arguments) s values
      s') : ∃ v, values = [v] := by
  have admits := Memory.inert_single.passes.admits id
  obtain ⟨v, s₁, read, given⟩ := gives_bind_iff.1 given
  obtain ⟨vs, s₂, reads, given⟩ := gives_bind_iff.1 given
  obtain ⟨a, s₃, got, given⟩ := gives_bind_iff.1 given
  obtain ⟨rfl, rfl⟩ := gives_get_iff.1 got
  obtain ⟨-, rfl⟩ := gives_lift_iff.1 given
  have asked := admits.request (ctx.enter s₃.1) v vs span s₃.1 s₃.2
    (admits.operands _ _ reads (admits.operand _ _ read h))
  rw [Analysis.call, StateT.run_bind]
  rcases out : (Analysis.request (ctx.enter s₃.1) v vs span).run s₃.2 with ⟨request, m⟩
  rw [out] at asked
  cases request with
  | answered values => exact List.length_eq_one_iff.1 (request_length (congrArg Prod.fst out))
  | enter method receiver =>
    exact (calls ⟨depth, ctx.enter s₃.1, method, receiver, vs, span, m⟩ rfl mode asked).1

/-- A call with one value is continued with it. -/
theorem oneWay_of_single (calls : OneValued depth)
    (mode : ctx.options.forkMode = .fallthroughOnly) (h : s.2.Single) :
    OneWay (Analysis.invoke depth) steps ctx id index s := by
  refine ⟨mode, fun slot values target s' given => ?_⟩
  have called := spread_isCall given
  obtain ⟨⟨instr, span⟩, here⟩ : ∃ instruction, steps[index]? = some instruction := by
    rw [← Option.isSome_iff_exists]
    exact Option.isSome_of_any called
  rw [callAt, here] at called
  cases instr with
  | call result callee arguments =>
    rcases step_of_found here given with stopped | ⟨s₀, arrived, executed⟩
    · cases stopped
    obtain ⟨several, s₁, answered, executed⟩ := gives_bind_iff.1 executed
    obtain ⟨v, rfl⟩ := results_single calls mode (memory_of_arrive arrived ▸ h) answered
    obtain ⟨a, s₂, -, executed⟩ := gives_bind_iff.1 executed
    rw [affordable, if_neg fun exceeded => Nat.lt_irrefl 1 exceeded.1] at executed
    obtain ⟨_, _, -, executed⟩ := gives_bind_iff.1 executed
    cases (gives_pure_iff.1 executed).1
  | _ => cases called

theorem Leads.single (calls : OneValued depth)
    (leads : Leads (Analysis.invoke depth) steps task s task' s₁)
    (mode : task.context.options.forkMode = .fallthroughOnly) (h : s.2.Single) :
    s₁.2.Single := by
  refine leads.keeps Memory.inert_single (fun ctx id index s₁ c leads deep issues kept => ?_) h
  obtain ⟨_, _, _, _, _, _, _, -, -, -, -, surrounded, -⟩ := issues
  have mode' : c.ctx.options.forkMode = .fallthroughOnly := by
    rw [surrounded]
    exact leads.context.2 ▸ mode
  exact (calls c deep mode' kept).2

namespace Analysis

variable {code : Code} {scope : Scope} {locals : List (String × Value)} {r : Resolution}

theorem resolve_single (calls : OneValued depth)
    (mode : ctx.options.forkMode = .fallthroughOnly) (h : m.Single) :
    ((resolve (invoke depth) ctx code scope locals).run m).2.Single :=
  resolve_keeps Memory.inert_single
    (fun c deep raised kept => (calls c deep (raised.context.2 ▸ mode) kept).2) h

theorem resolve_straight (calls : OneValued depth)
    (mode : ctx.options.forkMode = .fallthroughOnly) (h : m.Single) :
    ((resolve (invoke depth) ctx code scope locals).run m).1.Straight := by
  obtain ⟨s, ends, s', opened, walks, run⟩ := resolve_walks (invoke depth) ctx code scope locals m
  obtain ⟨size, alone, -⟩ := openRoot_alone opened
  have begun : s.2.Single := openRoot_keeps Memory.inert_single opened h
  have oneWay : Walks (invoke depth) code.steps.toArray (OneWay (invoke depth) code.steps.toArray)
      (.path ctx 0 0) s ends s' := walks.of_leads fun ctx' id index s₁ leads =>
    oneWay_of_single calls (leads.context.2 ▸ mode) (leads.single calls mode begun)
  obtain ⟨line, ended⟩ := oneWay.straight size.symm fun k p comes => absurd comes (alone k p)
  rw [run]
  exact ⟨ended, fun p k k' comes comes' => by rw [line k p comes, line k' p comes']⟩

/-- A resolution that ends once has one result. -/
theorem resultsOf_of_straight (straight : r.Straight) (method : Method) :
    ∃ v, resultsOf method r = [v] := by
  obtain ⟨e, ended⟩ := straight.ended
  have few : r.returnValues.length ≤ 1 := by
    refine (Resolution.length_returnsOf_le r.ends).trans ((List.length_filterMap_le _ _).trans ?_)
    rw [ended]
    exact Nat.le_refl 1
  have distinct : (Value.distinct (r.returnValues.map (Value.coerce method.returns))).length ≤ 1 :=
    (Value.length_distinctFrom_le [] _).trans (by rw [List.length_map]; exact few)
  unfold resultsOf
  split
  · exact ⟨_, rfl⟩
  · next some_ =>
    exact List.length_eq_one_iff.1 (Nat.le_antisymm distinct (List.length_pos_of_ne_nil some_))

/-- Its result is what a call gives and what may be kept of it. -/
theorem leave_of_straight (t : SymbolTable) (id : Nat) (receiver : Option Value)
    (arguments : List Value) (cutoffs : Nat) (straight : r.Straight) (h : m.Single) :
    GivesOne ((leave t id receiver arguments cutoffs r).run m) := by
  obtain ⟨v, one⟩ := resultsOf_of_straight straight (t.method id)
  obtain ⟨values, left⟩ := leave_run t id receiver arguments cutoffs r m
  have placed : ((resultsOf (t.method id) r).mapM fresh).run m.pop =
      ([(m.pop.place v).1], (m.pop.place v).2) := by rw [one]; rfl
  rw [placed] at values left
  refine ⟨⟨_, values⟩, ?_⟩
  have kept : (m.pop.place v).2.Single := h
  rcases left with same | same
  · rw [same]
    exact kept
  · rw [same]
    exact kept.remember _ _

theorem follow_givesOne (calls : OneValued depth)
    (mode : ctx.options.forkMode = .fallthroughOnly) (h : m.Single) (receiver : Option Value)
    (arguments : List Value) :
    GivesOne ((follow (invoke depth) ctx id receiver arguments).run m) := by
  have begun := h.body ctx.symbols id
  rcases out : (body ctx.symbols id).run m with ⟨_ | code, m'⟩
  · rw [out] at begun
    rw [follow_of_none _ _ _ out]
    exact ⟨⟨_, rfl⟩, begun⟩
  · have pushed : (m'.push (.of ctx.symbols id receiver arguments)).Single := by
      rw [out] at begun
      exact begun
    rw [follow_of_body _ _ _ out]
    exact leave_of_straight _ _ _ _ _ (resolve_straight calls mode pushed)
      (resolve_single calls mode pushed)

theorem invoke_givesOne (inside : ∀ fewer, depth = fewer + 1 → OneValued fewer) :
    OneValued depth := by
  intro c deep mode h
  show GivesOne ((invoke c.depth c.ctx c.id c.receiver c.arguments c.span).run c.memory)
  rw [deep]
  cases kept : c.memory.find? c.key with
  | some values =>
    obtain ⟨v, rfl⟩ := h.found kept
    rw [invoke_of_kept kept]
    exact ⟨⟨v, rfl⟩, h⟩
  | none =>
    cases depth with
    | zero =>
      rw [invoke_zero kept]
      exact ⟨⟨_, rfl⟩, h⟩
    | succ fewer =>
      by_cases entered : c.key.call ∈ c.memory.stack
      · rw [invoke_of_entered kept entered]
        exact ⟨⟨_, rfl⟩, h⟩
      · rw [invoke_of_new kept entered]
        exact follow_givesOne (inside fewer rfl) mode h c.receiver c.arguments

/-- However many calls may be followed, a call gives one value and keeps one. -/
theorem oneValued (depth : Nat) : OneValued depth := by
  induction depth with
  | zero => exact invoke_givesOne nofun
  | succ depth ih =>
    refine invoke_givesOne fun fewer same => ?_
    cases same
    exact ih

end Analysis

end Calls

/-! ## The resolutions of an analysis -/

/-- What a resolution begins with, and how many calls may be followed from there. -/
structure Outset where
  depth : Nat
  ctx : Context
  code : Code
  scope : Scope
  locals : List (String × Value)
  memory : Memory

namespace Outset

def resolution (o : Outset) : Resolution × Memory :=
  (Analysis.resolve (Analysis.invoke o.depth) o.ctx o.code o.scope o.locals).run o.memory

/-- A path comes to the instruction at `index`. -/
def Reaches (o : Outset) (ctx : Context) (id index : Nat) (s : State) : Prop :=
  ∃ s₀, Gives (openRoot o.scope o.locals) (.empty, o.memory) () s₀ ∧
    Leads (Analysis.invoke o.depth) o.code.steps.toArray (.path o.ctx 0 0) s₀
      (.path ctx id index) s

/-- With the memory `m`, an analysis comes to a resolution: for a query, or in the body of a call
that it follows. -/
inductive Arises (ctx : Context) (m : Memory) : Outset → Prop
  | query {q : Query} {e : Query.Entry} (opens : q.opens? ctx m = some e) :
      Arises ctx m ⟨ctx.options.maxCallDepth - e.memory.stack.length, ctx, e.code, e.scope,
        ctx.symbols.scopeVariables e.scope, e.memory⟩
  | call {o : Outset} {c : MethodCall} {fewer : Nat} {code : Code} {m' : Memory}
      (arises : Arises ctx m o) (raised : Raises o.ctx o.code o.scope o.locals o.memory c)
      (depth : c.depth = o.depth) (deep : c.depth = fewer + 1)
      (unknown : c.memory.find? c.key = none) (entered : c.key.call ∉ c.memory.stack)
      (body : (Analysis.body c.ctx.symbols c.id).run c.memory = (some code, m')) :
      Arises ctx m ⟨fewer, c.ctx, code, c.scope, c.locals, m'.push c.key.call⟩

/-- One path is followed: it takes no jump that depends on a condition, a call that it makes has one
value, and one value is kept for each call, from the beginning to the end. -/
structure OnePath (o : Outset) : Prop where
  straight : o.resolution.1.Straight
  before : o.memory.Single
  behind : o.resolution.2.Single
  between : ∀ {ctx id index s}, o.Reaches ctx id index s → s.2.Single
  jumps : ∀ {ctx id index s target condition expected span next s'}, o.Reaches ctx id index s →
    o.code.steps[index]? = some ⟨.gotoIf target condition expected, span⟩ →
      Gives (step (Analysis.invoke o.depth) ctx o.code.steps.toArray id index) s next s' →
        next.PassesBy index
  calls : ∀ {ctx id index s s₀ result callee arguments span values s'},
    o.Reaches ctx id index s →
      o.code.steps[index]? = some ⟨.call result callee arguments, span⟩ →
        Gives (arrive id index) s true s₀ →
          Gives (Walk.results (Analysis.invoke o.depth) ctx id span callee arguments) s₀ values
            s' → ∃ v, values = [v]

variable {ctx : Context} {m : Memory} {o : Outset}

theorem onePath (mode : o.ctx.options.forkMode = .fallthroughOnly) (h : o.memory.Single) :
    o.OnePath := by
  have one : OneValued o.depth := Analysis.oneValued o.depth
  have within {ctx : Context} {id index : Nat} {s : State} (reaches : o.Reaches ctx id index s) :
      ctx.options.forkMode = .fallthroughOnly ∧ s.2.Single := by
    obtain ⟨s₀, opened, leads⟩ := reaches
    have begun := Analysis.openRoot_keeps Memory.inert_single opened h
    exact ⟨leads.context.2 ▸ mode, leads.single one mode begun⟩
  refine ⟨Analysis.resolve_straight one mode h, h, Analysis.resolve_single one mode h,
    fun reaches => (within reaches).2, fun reaches here done => ?_,
    fun reaches here arrived given => ?_⟩
  · exact step_passesBy (within reaches).1 (by rw [List.getElem?_toArray, here]) done
  · obtain ⟨mode', kept⟩ := within reaches
    refine results_single one mode' ?_ given
    rwa [← memory_of_arrive arrived] at kept

/-- A resolution begins where one side of each jump is explored and one value is kept for each
call. -/
theorem Arises.single (arises : Arises ctx m o) (mode : ctx.options.forkMode = .fallthroughOnly)
    (h : m.Single) : o.ctx.options.forkMode = .fallthroughOnly ∧ o.memory.Single := by
  induction arises with
  | @query q e opens =>
    refine ⟨mode, ?_⟩
    rcases Query.entered opens with same | ⟨id, code?, m', call, body, same⟩
    · rwa [same]
    · have kept := h.body ctx.symbols id
      rw [body] at kept
      rw [same]
      exact kept
  | @call o c fewer code m' _ raised depth _ _ _ body ih =>
    obtain ⟨mode', before⟩ := ih
    have surrounded : c.ctx.options.forkMode = .fallthroughOnly := raised.context.2 ▸ mode'
    refine ⟨surrounded, ?_⟩
    have made : c.memory.Single := raised.keeps Memory.inert_single
      (fun other same raised' kept =>
        (Analysis.oneValued other.depth other rfl (raised'.context.2 ▸ mode') kept).2) before
    have kept := made.body c.ctx.symbols c.id
    rw [body] at kept
    exact kept

end Outset

section Asked

variable {ctx : Context} {m : Memory}

theorem Query.single_after (mode : ctx.options.forkMode = .fallthroughOnly) (h : m.Single)
    (q : Query) : (q.after ctx m).Single := by
  cases found : q.opens? ctx m with
  | none =>
    rcases after_of_none found with ⟨id, same⟩ | ⟨d, same⟩
    · exact same ▸ h.body ctx.symbols id
    · exact same ▸ h
  | some e =>
    have opened := (Outset.Arises.query found).single mode h
    have left : (e.resolution ctx).2.Single :=
      Analysis.resolve_single (Analysis.oneValued _) mode opened.2
    rcases after_of_entry found with same | same
    · exact same ▸ left
    · exact same ▸ left

theorem Asked.single (mode : ctx.options.forkMode = .fallthroughOnly) (asked : Asked ctx m) :
    m.Single := by
  induction asked with
  | start => exact List.forall_mem_nil _
  | body id _ ih => exact Query.single_after mode ih (.body id)
  | resolveMethod id _ ih => exact Query.single_after mode ih (.resolveMethod id)
  | returnType id _ ih => exact Query.single_after mode ih (.returnType id)
  | typeAt id span _ ih => exact Query.single_after mode ih (.typeAt id span)
  | resolveCode code scope _ ih => exact Query.single_after mode ih (.resolveCode code scope)
  | typeOfExpression e scope _ ih =>
    exact Query.single_after mode ih (.typeOfExpression e scope)

end Asked

/-- In the mode that explores one side only, whatever has been asked before: for each call whose
results are kept, one value is kept; and each resolution that the analysis comes to then, for a
query or in the body of a call, follows one path.  So whatever code is asked for in whatever scope,
and whatever method, there is one end and no branch has two that come from it.  A method whose body
has no code is not resolved, and calls of it have one value as all others have. -/
theorem one_path_followed {ctx : Context} (mode : ctx.options.forkMode = .fallthroughOnly)
    {m : Memory} (asked : Asked ctx m) :
    m.Single ∧ (∀ o, Outset.Arises ctx m o → o.OnePath) ∧
      (∀ code scope, ((Analysis.resolveCode ctx code scope).run m).1.Straight) ∧
        ∀ id,
          (∀ code, (ctx.symbols.method id).decl.toCode = .ok code →
            ((Analysis.resolveMethod ctx id).run m).1.Straight) ∧
          ∀ fault, (ctx.symbols.method id).decl.toCode = .error fault →
            ((Analysis.resolveMethod ctx id).run m).1 = .empty := by
  have single := asked.single mode
  have all (o : Outset) (arises : Outset.Arises ctx m o) : o.OnePath := by
    obtain ⟨mode', before⟩ := arises.single mode single
    exact Outset.onePath mode' before
  have asks {q : Query} {e : Query.Entry} (opens : q.opens? ctx m = some e) :
      (e.resolution ctx).1.Straight := (all _ (.query opens)).straight
  refine ⟨single, all, fun code scope => ?_, fun id => ?_⟩
  · rw [Query.resolveCode_run]
    exact asks (rfl : (Query.resolveCode code scope).opens? ctx m = _)
  · have opens := Query.opens?_of_faithful (asked.sound Value.closed_tidy).faithful id
    refine ⟨fun code lowers => ?_, fun fault lowers => ?_⟩
    · rw [lowers] at opens
      rw [Query.resolveMethod_of_entry opens]
      exact asks opens
    · rw [lowers] at opens
      rw [Query.resolveMethod_of_none opens]

/-- `pick` has jumps in a loop, `main` calls it on what it has given, and the body of `spoil` has no
code. -/
def sided : SymbolTable :=
  let c := Expr.name .absent "c"
  let call (name : String) : Expr := .call .absent (.name .absent name) [c]
  let method (name : String) (body : List Stmt) : Method :=
    ⟨name, none, [⟨"c", .any, none, false⟩], none,
      ⟨name, .absent, [⟨"c", .absent, none, none, false⟩], none, body, .absent⟩⟩
  let pick : List Stmt := [
    .loop .absent c [.cond .absent c [.ret .absent (some (.literal .absent (.boolean true)))] none],
    .ret .absent (some (.literal .absent (.string "many")))]
  let main : List Stmt := [
    .cond .absent c [.expr (.assign .absent c (call "spoil"))] none,
    .expr (.assign .absent c (call "pick")),
    .ret .absent (some (call "pick"))]
  let spoil : List Stmt := [.expr (.assign .absent (.member .absent c "x" .absent) c)]
  ⟨[method "pick" pick, method "main" main, method "spoil" spoil], [], [],
    [("pick", .method 0), ("main", .method 1), ("spoil", .method 2)]⟩

def sidedContext : Context :=
  .outer sided { AnalysisOptions.standard with forkMode := .fallthroughOnly }

/-- What is remembered when `main` has been asked for. -/
def sidedMemory : Memory := ((Analysis.resolveMethod sidedContext 1).run .empty).2

/-- The two calls of `pick` keep one value each, where both sides of its jumps would give it three
ends. -/
theorem one_path_followed_sided :
    sidedContext.options.forkMode = .fallthroughOnly ∧ Asked sidedContext sidedMemory ∧
      sidedMemory.results.map (·.1.call.method) = [0, 0] ∧ sidedMemory.Single ∧
      ((Analysis.resolveMethod (.outer sided .standard) 0).run .empty).1.terminals = [3, 4, 2] ∧
      (∃ code, (sided.method 0).decl.toCode = .ok code) ∧
      ((Analysis.resolveMethod sidedContext 0).run sidedMemory).1.Straight ∧
      (∃ fault, (sided.method 2).decl.toCode = .error fault) ∧
      ((Analysis.resolveMethod sidedContext 2).run sidedMemory).1 = .empty := by
  have asked : Asked sidedContext sidedMemory := .resolveMethod 1 .start
  obtain ⟨single, -, -, methods⟩ := one_path_followed rfl asked
  exact ⟨rfl, asked, by decide +kernel, single, by decide +kernel, ⟨_, rfl⟩, (methods 0).1 _ rfl,
    ⟨_, rfl⟩, (methods 2).2 _ rfl⟩

end PathTyping
