import PathTyping.Proofs.Abreast
import Mathlib.Order.Filter.AtTopBot.Basic

/-!
# Walks in lockstep

A walk of an analysis is compared with another through the same code, whose calls are answered by
any of a sequence of procedures.  If calls that come up in the first are answered alike by all but
finitely many of these, so the whole of the first walk is repeated alike by all but finitely many:
it has finitely many calls.

1. A step takes paths abreast to paths abreast (`step_beside`).
2. The call that a path makes at an instruction is told by the state (`Issues.unique`).
3. A walk is repeated alike: it ends on the same branches, and what its paths return looks alike
   (`Walks.abreast`).
-/

namespace PathTyping

open Walk Value

/-! ## Calls on both sides -/

/-- The table and the limits of an analysis. -/
structure Context.Under (t : SymbolTable) (options : AnalysisOptions) (ctx : Context) : Prop where
  symbols : ctx.symbols = t
  options : ctx.options = options

namespace MethodCall

/-- The call is made with tidy values. -/
structure Tidy (t : SymbolTable) (options : AnalysisOptions) (c : MethodCall) : Prop where
  under : c.ctx.Under t options
  receiver : ∀ r, c.receiver = some r → r.Tidy t
  arguments : ∀ v ∈ c.arguments, v.Tidy t

end MethodCall

/-- Calls with arguments that look like these are answered with what looks like these results,
whatever they are made on and surrounded by. -/
def Answered (t : SymbolTable) (options : AnalysisOptions) (N : Memory → Prop) (answer : Invoke)
    (id : Nat) (arguments results : List Value) : Prop :=
  ∀ ctx receiver others span m, ctx.Under t options → List.Forall₂ (Like t) arguments others →
    N m → List.Forall₂ (Like t) results ((answer ctx id receiver others span).run m).1 ∧
      N ((answer ctx id receiver others span).run m).2

namespace MethodCall

/-- The call is answered alike. -/
def Answered (t : SymbolTable) (options : AnalysisOptions) (N : Memory → Prop) (answer : Invoke)
    (c : MethodCall) : Prop :=
  PathTyping.Answered t options N answer c.id c.arguments c.results

end MethodCall

/-- The state tells which call a path makes. -/
theorem Issues.unique {steps : Array Step} {ctx : Context} {id index : Nat} {s : State}
    {c c' : MethodCall} (h : Issues steps ctx id index s c) (h' : Issues steps ctx id index s c')
    (depth : c.depth = c'.depth) : c = c' := by
  obtain ⟨_, _, _, v, s₀, s₁, s₂, here, arrived, read, reads, entered, requested⟩ := h
  obtain ⟨_, _, _, v', s₀', s₁', s₂', here', arrived', read', reads', entered', requested'⟩ := h'
  obtain ⟨d, surroundings, callee, receiver, arguments, span, memory⟩ := c
  obtain ⟨d', surroundings', callee', receiver', arguments', span', memory'⟩ := c'
  dsimp only at *
  subst depth
  cases here.symm.trans here'
  obtain ⟨-, rfl⟩ := arrived.unique arrived'
  obtain ⟨rfl, rfl⟩ := read.unique read'
  obtain ⟨rfl, rfl⟩ := reads.unique reads'
  subst entered entered'
  cases requested.symm.trans requested'
  rfl

/-! ## Steps -/

section Step

variable {t : SymbolTable} {options : AnalysisOptions} {L N : Memory → Prop} {depth : Nat}
  {answer : Invoke} {steps : Array Step} {ctx ctx' : Context} {id index : Nat} {s s' r r' : State}
  (inert : Memory.Inert L ∧ Memory.Inert N)

theorem forall_tidy {values others : List Value} (h : List.Forall₂ (Like t) values others) :
    ∀ v ∈ values, v.Tidy t := by
  induction h with
  | nil => exact nofun
  | cons first _ ih => exact List.forall_mem_cons.2 ⟨first.left, ih⟩

include inert

/-- Calls of methods that look alike, made with arguments that do, are answered alike. -/
theorem results_beside (under : ctx.Under t options) (under' : ctx'.Under t options)
    {result callee : Slot} {arguments : List Slot} {span : Span}
    (here : steps[index]? = some ⟨.call result callee arguments, span⟩) {s₀ r₀ : State}
    (arrived : Gives (arrive id index) s true s₀) (beside : Beside t L N id s₀ r₀)
    (calls : ∀ c : MethodCall, c.depth = depth → Issues steps ctx id index s c → L c.memory →
      c.Tidy t options → c.Answered t options N answer ∧ L c.after)
    {values others : List Value}
    (given : Gives (results (Analysis.invoke depth) ctx id span callee arguments) s₀ values s')
    (given' : Gives (results answer ctx' id span callee arguments) r₀ others r') :
    List.Forall₂ (Like t) values others ∧ Beside t L N id s' r' := by
  obtain ⟨v, s₁, read, given⟩ := gives_bind_iff.1 given
  obtain ⟨w, r₁, read', given'⟩ := gives_bind_iff.1 given'
  obtain ⟨like, beside⟩ := operand_agrees inert callee beside read read'
  obtain ⟨vs, s₂, reads, given⟩ := gives_bind_iff.1 given
  obtain ⟨ws, r₂, reads', given'⟩ := gives_bind_iff.1 given'
  obtain ⟨alike, beside⟩ := operands_agree inert arguments beside reads reads'
  obtain ⟨a, s₃, got, given⟩ := gives_bind_iff.1 given
  obtain ⟨rfl, rfl⟩ := gives_get_iff.1 got
  obtain ⟨a', r₃, got', given'⟩ := gives_bind_iff.1 given'
  obtain ⟨rfl, rfl⟩ := gives_get_iff.1 got'
  obtain ⟨rfl, rfl⟩ := gives_lift_iff.1 given
  obtain ⟨rfl, rfl⟩ := gives_lift_iff.1 given'
  have asks {M : Memory → Prop} (inert : Memory.Inert M) (ctx : Context) (v : Value)
      (vs : List Value) {m : Memory} (hm : M m) :
      M ((Analysis.request ctx v vs span).run m).2 := by
    rcases Analysis.request_memory ctx v vs span m with same | ⟨d, same⟩
    · exact same.symm ▸ hm
    · exact same.symm ▸ inert.add hm d
  have left := asks inert.1 (ctx.enter s₃.1) v vs beside.left
  have right := asks inert.2 (ctx'.enter r₃.1) w ws beside.right
  have same := Analysis.request_like (show (ctx.enter s₃.1).symbols = t from under.symbols)
    (show (ctx'.enter r₃.1).symbols = t from under'.symbols) like alike span s₃.2 r₃.2
  rw [Analysis.call, StateT.run_bind, Analysis.call, StateT.run_bind]
  rcases out : (Analysis.request (ctx.enter s₃.1) v vs span).run s₃.2 with ⟨request, m⟩
  rcases out' : (Analysis.request (ctx'.enter r₃.1) w ws span).run r₃.2 with ⟨request', m'⟩
  rw [out] at left same
  rw [out'] at right same
  cases request with
  | answered answers =>
    cases request' with
    | answered answers' => exact ⟨same, beside.arena, left, right⟩
    | enter _ _ => exact same.elim
  | enter callee receiver =>
    cases request' with
    | answered _ => exact same.elim
    | enter callee' receiver' =>
      obtain ⟨rfl, tidy⟩ := same
      let c : MethodCall := ⟨depth, ctx.enter s₃.1, callee, receiver, vs, span, m⟩
      obtain ⟨answered, after⟩ := calls c rfl
        ⟨result, _, arguments, v, s₀, s₁, s₃, here, arrived, read, reads, rfl, out⟩ left
        ⟨⟨under.symbols, under.options⟩, tidy, forall_tidy alike⟩
      obtain ⟨equal, right⟩ := answered (ctx'.enter r₃.1) receiver' ws span m'
        ⟨under'.symbols, under'.options⟩ alike right
      exact ⟨equal, beside.arena, after, right⟩

/-- An instruction takes paths abreast to paths abreast. -/
theorem execute_beside {invoke : Invoke} (under : ctx.Under t options)
    (under' : ctx'.Under t options) {instruction : Step} (beside : Beside t L N id s r)
    (called : ∀ {result callee arguments values s₁ others r₁},
      instruction.instr = .call result callee arguments →
        Gives (results invoke ctx id instruction.span callee arguments) s values s₁ →
          Gives (results answer ctx' id instruction.span callee arguments) r others r₁ →
            List.Forall₂ (Like t) values others ∧ Beside t L N id s₁ r₁)
    {next next' : Next} (given : Gives (execute invoke ctx id index instruction) s next s')
    (given' : Gives (execute answer ctx' id index instruction) r next' r') :
    next.Abreast t id s'.1 r'.1 next' ∧ Beside t L N id s' r' := by
  obtain ⟨instr, span⟩ := instruction
  unfold execute at given given'
  cases instr with
  | const result l =>
    exact continues_bound inert result (tidy_ofLiteral l).like _ beside given given'
  | unary result op x =>
    exact continues_after (operand_agrees inert x) (fun _ _ like =>
      continues_bound inert result (like.unary op) _) beside given given'
  | binary result x op y =>
    exact continues_after (operand_agrees inert x) (fun _ _ first =>
      continues_after (operand_agrees inert y) fun _ _ second =>
        continues_bound inert result (first.binary op second) _) beside given given'
  | goto target => exact continues_next target beside given given'
  | gotoIf target condition expected =>
    rw [under.options] at given
    rw [under'.options] at given'
    exact continues_after (operand_agrees inert condition) (fun _ _ _ =>
      fork_continues options target _) beside given given'
  | call result callee arguments =>
    rw [under.options] at given
    rw [under'.options] at given'
    obtain ⟨values, s₁, answers, given⟩ := gives_bind_iff.1 given
    obtain ⟨others, r₁, answers', given'⟩ := gives_bind_iff.1 given'
    obtain ⟨alike, beside⟩ := called rfl answers answers'
    exact continueWith_continues inert options result alike _ beside given given'
  | load result name =>
    exact continues_after (load_agrees inert under.symbols under'.symbols name) (fun _ _ like =>
      continues_bound inert result like _) beside given given'
  | member result target name =>
    exact continues_after (loadMember_agrees inert under.symbols under'.symbols target name)
      (fun _ _ like => continues_bound inert result like _) beside given given'
  | index result target key =>
    rw [under.symbols] at given
    rw [under'.symbols] at given'
    exact continues_after (operand_agrees inert target) (fun _ _ first =>
      continues_after (operand_agrees inert key) fun _ _ second =>
        continues_after (settle_agrees inert (first.element second)) fun _ _ like =>
          continues_bound inert result like _) beside given given'
  | store name value =>
    exact continues_after (operand_agrees inert value) (fun _ _ like =>
      continues_after (bindVariable_agrees inert name like) fun _ _ _ => continues_next _)
        beside given given'
  | ret value =>
    cases value with
    | some value =>
      exact continues_after (operand_agrees inert value) (fun _ _ like =>
        continues_stop .return_ like) beside given given'
    | none =>
      exact continues_after latest_agrees (fun _ _ like => continues_stop .return_ like)
        beside given given'

/-- A step takes paths abreast to paths abreast. -/
theorem step_beside (under : ctx.Under t options) (under' : ctx'.Under t options)
    (calls : ∀ c : MethodCall, c.depth = depth → Issues steps ctx id index s c → L c.memory →
      c.Tidy t options → c.Answered t options N answer ∧ L c.after)
    (beside : Beside t L N id s r) {next next' : Next}
    (given : Gives (step (Analysis.invoke depth) ctx steps id index) s next s')
    (given' : Gives (step answer ctx' steps id index) r next' r') :
    next.Abreast t id s'.1 r'.1 next' ∧ Beside t L N id s' r' := by
  unfold step at given given'
  cases here : steps[index]? with
  | none =>
    rw [here] at given given'
    exact continues_after latest_agrees (fun _ _ like => continues_stop .fallThrough like) beside
      given given'
  | some instruction =>
    rw [here] at given given'
    obtain ⟨b, b', found, found', like⟩ := beside.arena.own
    obtain ⟨first, s₀, arrived, given⟩ := gives_bind_iff.1 given
    obtain ⟨first', r₀, arrived', given'⟩ := gives_bind_iff.1 given'
    obtain ⟨rfl, rfl⟩ := gives_arrive found arrived
    obtain ⟨rfl, rfl⟩ := gives_arrive found' arrived'
    have visits : b'.visits index = b.visits index := by
      rw [Branch.visits, Branch.visits, like.visited]
    have beside : Beside t L N id (s.visit id index) (r.visit id index) :=
      ⟨beside.arena.visit index, beside.left, beside.right⟩
    rw [visits] at given'
    by_cases new : b.visits index = 0
    · rw [new] at given given' arrived
      refine execute_beside inert under under' beside ?_ given given'
      intro result callee arguments values s₁ others r₁ calling answers answers'
      obtain ⟨instr, span⟩ := instruction
      obtain rfl : instr = .call result callee arguments := calling
      exact results_beside inert under under' here arrived beside calls answers answers'
    · rw [if_neg (by simpa using new)] at given given'
      exact continues_after agrees_get (fun _ _ _ =>
        continues_after (report_agrees inert _ _ _) fun _ _ _ =>
          continues_stop .loopCutoff tidy_any.like) beside given given'

end Step

/-! ## Tasks -/

/-- What is still to be walked on both sides. -/
inductive Task.Abreast (t : SymbolTable) (options : AnalysisOptions) (a a' : Arena) :
    Task → Task → Prop
  | path {ctx ctx' : Context} {id index : Nat} (under : ctx.Under t options)
      (under' : ctx'.Under t options) (abreast : PathTyping.Abreast t id a a') :
      Abreast t options a a' (.path ctx id index) (.path ctx' id index)
  | all {ctx ctx' : Context} {id : Nat} {starts : List (Nat × Nat)} (under : ctx.Under t options)
      (under' : ctx'.Under t options) (abreast : PathTyping.Abreast t id a a')
      (waiting : Waiting id starts a a') :
      Abreast t options a a' (.all ctx starts) (.all ctx' starts)
  | each {ctx ctx' : Context} {id : Nat} {slot : Slot} {values others : List Value} {index : Nat}
      (under : ctx.Under t options) (under' : ctx'.Under t options)
      (abreast : PathTyping.Abreast t id a a') (alike : List.Forall₂ (Like t) values others) :
      Abreast t options a a' (.each ctx id slot values index) (.each ctx' id slot others index)

/-- Paths have ended alike on the branches, and what they return looks alike. -/
def Ended (t : SymbolTable) (a a' : Arena) (ends : List Nat) : Prop :=
  ∀ id ∈ ends, ∃ b b', a.branch? id = some b ∧ a'.branch? id = some b' ∧
    b.termination = b'.termination ∧ Option.Rel (Like t) b.returned b'.returned

section Tasks

variable {t : SymbolTable} {options : AnalysisOptions} {a a' a₁ a₁' : Arena} {id : Nat}
  {starts : List (Nat × Nat)}

theorem Waiting.left (h : Waiting id starts a a') : Waiting id starts a a :=
  ⟨h.apart, fun start hs => by
    obtain ⟨older, visited, fresh, -⟩ := h.fresh start hs
    exact ⟨older, visited, fresh, fresh⟩⟩

theorem Task.Abreast.left {task task' : Task} (h : task.Abreast t options a a' task') :
    task.Abreast t options a a task := by
  cases h with
  | path under _ abreast => exact .path under under abreast.left
  | all under _ abreast waiting => exact .all under under abreast.left waiting.left
  | each under _ abreast alike => exact .each under under abreast.left (forall₂_left alike)

theorem Task.Abreast.stands {task task' : Task} (h : task.Abreast t options a a' task') :
    task.Stands a ∧ task'.Stands a' := by
  cases h with
  | path _ _ abreast => exact abreast.lt
  | all _ _ _ waiting =>
    refine ⟨fun start hs => ?_, fun start hs => ?_⟩
    · obtain ⟨-, _, fresh, -⟩ := waiting.fresh start hs
      exact Arena.lt_size_of_branch? fresh
    · obtain ⟨-, _, -, fresh⟩ := waiting.fresh start hs
      exact Arena.lt_size_of_branch? fresh
  | each _ _ abreast _ => exact abreast.lt

/-- Where a path goes on, it does so on both sides. -/
theorem Next.Abreast.task {next next' : Next} (h : next.Abreast t id a a' next')
    (abreast : PathTyping.Abreast t id a a') {ctx ctx' : Context} (under : ctx.Under t options)
    (under' : ctx'.Under t options) {task : Task} (goes : next.task? ctx id = some task) :
    ∃ task', next'.task? ctx' id = some task' ∧ task.Abreast t options a a' task' := by
  cases next with
  | next index =>
    cases goes
    cases next' with
    | next index' =>
      obtain rfl : index = index' := h
      exact ⟨_, rfl, .path under under' abreast⟩
    | _ => exact h.elim
  | stop ending v => cases goes
  | split starts =>
    cases goes
    cases next' with
    | split starts' =>
      obtain ⟨rfl, waiting⟩ := h
      exact ⟨_, rfl, .all under under' abreast waiting⟩
    | _ => exact h.elim
  | spread slot values index =>
    cases goes
    cases next' with
    | spread slot' others index' =>
      obtain ⟨rfl, rfl, alike⟩ := h
      exact ⟨_, rfl, .each under under' abreast alike⟩
    | _ => exact h.elim

theorem Next.Abreast.stop {ending : Termination} {v : Value} {next' : Next}
    (h : (Next.stop ending v).Abreast t id a a' next') :
    ∃ w, next' = .stop ending w ∧ Like t v w := by
  cases next' with
  | stop ending' w =>
    obtain ⟨rfl, like⟩ := h
    exact ⟨w, rfl, like⟩
  | _ => exact h.elim

/-- What is walked for the first of some new branches leaves the others waiting. -/
theorem Waiting.rest {k index : Nat} {ctx ctx' : Context}
    (h : Waiting id ((k, index) :: starts) a a') (abreast : PathTyping.Abreast t id a a')
    (framed : Framed (.path ctx k index) a a₁) (framed' : Framed (.path ctx' k index) a' a₁')
    (size : a₁.size = a₁'.size) :
    PathTyping.Abreast t id a₁ a₁' ∧ Waiting id starts a₁ a₁' := by
  obtain ⟨older, -, -⟩ := h.fresh (k, index) List.mem_cons_self
  obtain ⟨first, apart⟩ := List.nodup_cons.1 h.apart
  have untouched {j : Nat} (ne : j ≠ k) : j ∉ (Task.path ctx k index).branches :=
    fun mine => ne (List.mem_singleton.1 mine)
  have before {j : Nat} (hj : j ≤ id) : j ≠ k := Nat.ne_of_lt (Nat.lt_of_le_of_lt hj older)
  refine ⟨abreast.of_older size (fun j hj => ?_) fun j hj => ?_, apart, fun start hs => ?_⟩
  · exact framed.others j (Nat.lt_of_le_of_lt hj abreast.lt.1) (untouched (before hj))
  · exact framed'.others j (Nat.lt_of_le_of_lt hj abreast.lt.2) (untouched (before hj))
  · obtain ⟨older', visited, fresh, fresh'⟩ := h.fresh start (List.mem_cons_of_mem _ hs)
    have ne : start.1 ≠ k := fun same => first (List.mem_map.2 ⟨start, hs, same⟩)
    refine ⟨older', visited, ?_, ?_⟩
    · rw [framed.others _ (Arena.lt_size_of_branch? fresh) (untouched ne), fresh]
    · rw [framed'.others _ (Arena.lt_size_of_branch? fresh') (untouched ne), fresh']

theorem Waiting.first {k index : Nat} (h : Waiting id ((k, index) :: starts) a a')
    (abreast : PathTyping.Abreast t id a a') : PathTyping.Abreast t k a a' := by
  obtain ⟨older, visited, fresh, fresh'⟩ := h.fresh (k, index) List.mem_cons_self
  exact abreast.begins older fresh fresh'

/-! ### Endings -/

theorem Ended.append {ends more : List Nat} (h : Ended t a a' ends) (h' : Ended t a a' more) :
    Ended t a a' (ends ++ more) := fun k hk => (List.mem_append.1 hk).elim (h k) (h' k)

/-- What leaves the branches alone leaves paths ended there. -/
theorem Ended.of_same {ends : List Nat} (h : Ended t a a' ends)
    (same : ∀ k ∈ ends, a₁.branch? k = a.branch? k)
    (same' : ∀ k ∈ ends, a₁'.branch? k = a'.branch? k) : Ended t a₁ a₁' ends := fun k hk => by
  obtain ⟨b, b', found, found', rest⟩ := h k hk
  exact ⟨b, b', (same k hk).trans found, (same' k hk).trans found', rest⟩

end Tasks

/-! ## Walks -/

section Walks

variable {t : SymbolTable} {options : AnalysisOptions} {L N : Memory → Prop} {depth : Nat}
  {answers : Nat → Invoke} {steps : Array Step} {ctx ctx' : Context} {id index : Nat}
  {s s' s₁ r r' r₁ : State} {task task' : Task} {ends others : List Nat}
  (inert : Memory.Inert L ∧ Memory.Inert N)

/-- A new branch is made on both sides for values that look alike. -/
theorem each_beside (inert : Memory.Inert L ∧ Memory.Inert N) {slot : Slot} {v w : Value}
    (beside : Beside t L N id s r) (like : Like t v w)
    (bound : Gives (bindSlot s.1.size slot v) (s.1.child id, s.2) () s₁)
    (bound' : Gives (bindSlot r.1.size slot w) (r.1.child id, r.2) () r₁) :
    Beside t L N s.1.size s₁ r₁ ∧ PathTyping.Abreast t id s₁.1 r₁.1 := by
  obtain ⟨stands, stands'⟩ := beside.arena.lt
  have size := beside.arena.size
  have made : Beside t L N s.1.size (s.1.child id, s.2) (r.1.child id, r.2) :=
    ⟨(beside.arena.forkedOnce 0).first beside.arena.child, beside.left, beside.right⟩
  have apart := (bindSlot_bound bound).apart
  have apart' := (bindSlot_bound bound').apart
  rw [← size] at bound'
  obtain ⟨-, after⟩ := bindSlot_agrees inert slot like made bound bound'
  refine ⟨after, beside.arena.of_older after.arena.size (fun k hk => ?_) fun k hk => ?_⟩
  · rw [apart.others k (Nat.ne_of_lt (Nat.lt_of_le_of_lt hk stands))]
    exact s.1.branch?_child_of_lt id (Nat.lt_of_le_of_lt hk stands)
  · rw [apart'.others k (Nat.ne_of_lt (Nat.lt_of_le_of_lt hk stands'))]
    exact r.1.branch?_child_of_lt id (Nat.lt_of_le_of_lt hk stands')

theorem finish_beside (inert : Memory.Inert L ∧ Memory.Inert N) {ending : Termination}
    {v w : Value} (beside : Beside t L N id s r) (like : Like t v w)
    (finished : Gives (finish id ending v) s () s')
    (finished' : Gives (finish id ending w) r () r') :
    s'.1.size = r'.1.size ∧ Ended t s'.1 r'.1 [id] ∧ L s'.2 ∧ N r'.2 := by
  obtain ⟨v', s₁, made, changed⟩ := gives_bind_iff.1 finished
  obtain ⟨w', r₁, made', changed'⟩ := gives_bind_iff.1 finished'
  obtain ⟨like, beside⟩ := fresh_agrees inert like beside made made'
  obtain rfl := gives_modify_iff.1 changed
  obtain rfl := gives_modify_iff.1 changed'
  obtain ⟨b, b', found, found', -⟩ := beside.arena.own
  refine ⟨?_, fun k hk => ?_, beside.left, beside.right⟩
  · rw [Arena.size_modify, Arena.size_modify, beside.arena.size]
  · obtain rfl := List.mem_singleton.1 hk
    refine ⟨b.finish ending v', b'.finish ending w', ?_, ?_, rfl, .some like⟩
    · rw [Arena.branch?_modify, if_pos rfl, found, Option.map_some]
    · rw [Arena.branch?_modify, if_pos rfl, found', Option.map_some]

/-- The call that a path makes, if it makes one, is answered alike from somewhere on. -/
theorem eventually_answered (calls : ∀ c : MethodCall, c.depth = depth →
      Issues steps ctx id index s c → L c.memory → c.Tidy t options →
        (∀ᶠ n in Filter.atTop, c.Answered t options N (answers n)) ∧ L c.after) :
    ∀ᶠ n in Filter.atTop, ∀ c : MethodCall, c.depth = depth → Issues steps ctx id index s c →
      L c.memory → c.Tidy t options → c.Answered t options N (answers n) ∧ L c.after := by
  by_cases made : ∃ c : MethodCall, c.depth = depth ∧ Issues steps ctx id index s c ∧
      L c.memory ∧ c.Tidy t options
  · obtain ⟨c, deep, issues, hm, tidy⟩ := made
    obtain ⟨answered, after⟩ := calls c deep issues hm tidy
    filter_upwards [answered] with n answered c' deep' issues' _ _
    obtain rfl := issues.unique issues' (deep.trans deep'.symm)
    exact ⟨answered, after⟩
  · exact .of_forall fun n c deep issues hm tidy => absurd ⟨c, deep, issues, hm, tidy⟩ made

/-- The walk is repeated alike on the other side. -/
def Repeated (t : SymbolTable) (options : AnalysisOptions) (N : Memory → Prop) (answer : Invoke)
    (steps : Array Step) (task : Task) (s : State) (ends : List Nat) (s' : State) : Prop :=
  ∀ ⦃task' r others r'⦄, task.Abreast t options s.1 r.1 task' → N r.2 →
    Walks answer steps (fun _ _ _ _ => True) task' r others r' →
      ends = others ∧ s'.1.size = r'.1.size ∧ Ended t s'.1 r'.1 ends ∧ N r'.2

/-- The call hypothesis of a walk: whatever call comes up is answered alike from somewhere on. -/
def Answers (t : SymbolTable) (options : AnalysisOptions) (L N : Memory → Prop) (depth : Nat)
    (answers : Nat → Invoke) (steps : Array Step) (task : Task) (s : State) : Prop :=
  ∀ ctx id index s₁ (c : MethodCall),
    Leads (Analysis.invoke depth) steps task s (.path ctx id index) s₁ → c.depth = depth →
      Issues steps ctx id index s₁ c → L c.memory → c.Tidy t options →
        (∀ᶠ n in Filter.atTop, c.Answered t options N (answers n)) ∧ L c.after

/-- Under way on a path, one step on. -/
theorem repeated_onward {answer : Invoke} {next : Next}
    (step : ∀ ⦃ctx' : Context⦄ ⦃r r₁ : State⦄ ⦃next' : Next⦄, ctx'.Under t options →
      Beside t L N id s r → Gives (step answer ctx' steps id index) r next' r₁ →
        next.Abreast t id s₁.1 r₁.1 next' ∧ Beside t L N id s₁ r₁)
    (under : ctx.Under t options) (left : L s.2) (goes : next.task? ctx id = some task)
    (rest : Repeated t options N answer steps task s₁ ends s') :
    Repeated t options N answer steps (.path ctx id index) s ends s' := by
  intro task' r others r' fits right walks
  cases fits with
  | path _ under' abreast =>
    cases walks with
    | onward _ done goes' walks =>
      obtain ⟨same, beside⟩ := step under' ⟨abreast, left, right⟩ done
      obtain ⟨task', leads, fits⟩ := same.task beside.arena under under' goes
      cases leads.symm.trans goes'
      exact rest fits beside.right walks
    | stop _ done _ =>
      obtain ⟨same, beside⟩ := step under' ⟨abreast, left, right⟩ done
      obtain ⟨_, leads, -⟩ := same.task beside.arena under under' goes
      cases leads

theorem repeated_stop (inert : Memory.Inert L ∧ Memory.Inert N) {answer : Invoke}
    {ending : Termination} {v : Value}
    (step : ∀ ⦃ctx' : Context⦄ ⦃r r₁ : State⦄ ⦃next' : Next⦄, ctx'.Under t options →
      Beside t L N id s r → Gives (step answer ctx' steps id index) r next' r₁ →
        (Next.stop ending v).Abreast t id s₁.1 r₁.1 next' ∧ Beside t L N id s₁ r₁)
    (left : L s.2) (finished : Gives (finish id ending v) s₁ () s') :
    Repeated t options N answer steps (.path ctx id index) s [id] s' := by
  intro task' r others r' fits right walks
  cases fits with
  | path _ under' abreast =>
    cases walks with
    | onward _ done goes' walks =>
      obtain ⟨same, -⟩ := step under' ⟨abreast, left, right⟩ done
      obtain ⟨w, rfl, -⟩ := same.stop
      cases goes'
    | stop _ done finished' =>
      obtain ⟨same, beside⟩ := step under' ⟨abreast, left, right⟩ done
      obtain ⟨w, ⟨⟩, like⟩ := same.stop
      obtain ⟨size, ended, -, right⟩ := finish_beside inert beside like finished finished'
      exact ⟨rfl, size, ended, right⟩

theorem repeated_allCons {answer : Invoke} {starts : List (Nat × Nat)} {more : List Nat}
    (walks : Walks (Analysis.invoke depth) steps (fun _ _ _ _ => True) (.path ctx id index) s
      ends s₁)
    (walks' : Walks (Analysis.invoke depth) steps (fun _ _ _ _ => True) (.all ctx starts) s₁
      more s')
    (first : Repeated t options N answer steps (.path ctx id index) s ends s₁)
    (rest : Repeated t options N answer steps (.all ctx starts) s₁ more s') :
    Repeated t options N answer steps (.all ctx ((id, index) :: starts)) s (ends ++ more) s' := by
  intro task' r others r' fits right turns
  cases fits with
  | @all _ ctx' parent _ under under' abreast waiting =>
    cases turns with
    | @allCons _ _ _ _ _ r₁ _ ends' more' turns turns' =>
      have begins := waiting.first abreast
      obtain ⟨rfl, size, ended, right⟩ := first (.path under under' begins) right turns
      obtain ⟨framed, belong⟩ := walks.framed begins.lt.1
      obtain ⟨framed', belong'⟩ := turns.framed begins.lt.2
      obtain ⟨abreast', waiting'⟩ := waiting.rest abreast framed framed' size
      have fits := Task.Abreast.all under under' abreast' waiting'
      obtain ⟨rfl, size', ended', right⟩ := rest fits right turns'
      obtain ⟨later, -⟩ := walks'.framed fits.stands.1
      obtain ⟨later', -⟩ := turns'.framed fits.stands.2
      -- A path that has ended has done so on its own branch or on one that is newer than all that
      -- wait.
      have passed (k : Nat) (hk : k ∈ ends) : k ∉ (Task.all ctx starts).branches := by
        intro waits
        obtain ⟨start, hs, rfl⟩ := List.mem_map.1 waits
        obtain ⟨-, visited, fresh, -⟩ := waiting.fresh start (List.mem_cons_of_mem _ hs)
        rcases (belong start.1 hk).2 with mine | new
        · exact (List.nodup_cons.1 waiting.apart).1
            (List.mem_map.2 ⟨start, hs, List.mem_singleton.1 mine⟩)
        · exact absurd (Arena.lt_size_of_branch? fresh) (Nat.not_lt.2 new)
      refine ⟨rfl, size', (ended.of_same (fun k hk => ?_) fun k hk => ?_).append ended', right⟩
      · exact later.others k (belong k hk).1 (passed k hk)
      · exact later'.others k (belong' k hk).1 (passed k hk)

theorem repeated_eachCons (inert : Memory.Inert L ∧ Memory.Inert N) {answer : Invoke}
    {slot : Slot} {v : Value} {values : List Value} {s₂ : State} {more : List Nat}
    (bound : Gives (bindSlot s.1.size slot v) (s.1.child id, s.2) () s₁) (left : L s.2)
    (walks : Walks (Analysis.invoke depth) steps (fun _ _ _ _ => True)
      (.path (ctx.await values) s.1.size index) s₁ ends s₂)
    (walks' : Walks (Analysis.invoke depth) steps (fun _ _ _ _ => True)
      (.each ctx id slot values index) s₂ more s')
    (first : Repeated t options N answer steps (.path (ctx.await values) s.1.size index) s₁ ends s₂)
    (rest : Repeated t options N answer steps (.each ctx id slot values index) s₂ more s') :
    Repeated t options N answer steps (.each ctx id slot (v :: values) index) s (ends ++ more)
      s' := by
  intro task' r others r' fits right turns
  cases fits with
  | @each _ ctx' _ _ _ _ _ under under' abreast alike =>
    cases alike with
    | @cons _ w _ others' like alike =>
      cases turns with
      | @eachCons _ _ _ _ _ _ _ r₁ r₂ _ ends' more' bound' turns turns' =>
        obtain ⟨beside, waits⟩ := each_beside inert ⟨abreast, left, right⟩ like bound bound'
        obtain ⟨stands, stands'⟩ := beside.arena.lt
        rw [← abreast.size] at turns
        have fits : (Task.path (ctx.await values) s.1.size index).Abreast t options s₁.1 r₁.1
            (.path (ctx'.await others') s.1.size index) :=
          .path ⟨under.symbols, under.options⟩ ⟨under'.symbols, under'.options⟩ beside.arena
        obtain ⟨rfl, size, ended, right⟩ := first fits beside.right turns
        obtain ⟨framed, belong⟩ := walks.framed stands
        obtain ⟨framed', belong'⟩ := turns.framed stands'
        have older {k : Nat} (hk : k ≤ id) : k ∉ (Task.path ctx s.1.size index).branches :=
          fun mine => Nat.ne_of_lt (Nat.lt_of_le_of_lt hk abreast.lt.1) (List.mem_singleton.1 mine)
        have still := waits.of_older size
          (fun k hk => framed.others k (Nat.lt_of_le_of_lt hk waits.lt.1) (older hk))
          fun k hk => framed'.others k (Nat.lt_of_le_of_lt hk waits.lt.2) (older hk)
        have fits : (Task.each ctx id slot values index).Abreast t options s₂.1 r₂.1
            (.each ctx' id slot others' index) := .each under under' still alike
        obtain ⟨rfl, size', ended', right⟩ := rest fits right turns'
        obtain ⟨later, -⟩ := walks'.framed fits.stands.1
        obtain ⟨later', -⟩ := turns'.framed fits.stands.2
        refine ⟨rfl, size', (ended.of_same (fun k hk => ?_) fun k hk => ?_).append ended', right⟩
        · exact later.others k (belong k hk).1 List.not_mem_nil
        · exact later'.others k (belong' k hk).1 List.not_mem_nil

/-- A walk whose calls are answered alike from somewhere on is repeated alike from somewhere on. -/
theorem Walks.abreast (inert : Memory.Inert L ∧ Memory.Inert N) (sub : ∀ m, L m → N m)
    (walks : Walks (Analysis.invoke depth) steps (fun _ _ _ _ => True) task s ends s')
    (calls : Answers t options L N depth answers steps task s) (left : L s.2)
    (self : task.Abreast t options s.1 s.1 task) :
    L s'.2 ∧ ∀ᶠ n in Filter.atTop, Repeated t options N (answers n) steps task s ends s' := by
  induction walks with
  | @onward ctx id index next task s s₁ s' ends _ done goes walks ih =>
    cases self with
    | path under _ abreast =>
      have answered := eventually_answered fun c => calls ctx id index s c .here
      -- The step that is compared with itself tells what holds on this side alone.
      obtain ⟨n, alone⟩ := answered.exists
      obtain ⟨next', r₁, done'⟩ := gives_some (step (answers n) ctx steps id index) s
      obtain ⟨same, beside⟩ :=
        step_beside inert under under alone ⟨abreast, left, sub _ left⟩ done done'
      obtain ⟨task', -, fits⟩ := same.task beside.arena under under goes
      obtain ⟨after, repeated⟩ := ih (fun ctx' id' index' s₂ c leads =>
        calls ctx' id' index' s₂ c (.onward done goes leads)) beside.left fits.left
      refine ⟨after, ?_⟩
      filter_upwards [answered, repeated] with n answered repeated
      exact repeated_onward (fun ctx' r r₁ next' under' beside done' =>
        step_beside inert under under' answered beside done done') under left goes repeated
  | @stop ctx id index s s₁ s' ending v _ done finished =>
    cases self with
    | path under _ abreast =>
      have answered := eventually_answered fun c => calls ctx id index s c .here
      obtain ⟨n, alone⟩ := answered.exists
      obtain ⟨next', r₁, done'⟩ := gives_some (step (answers n) ctx steps id index) s
      obtain ⟨same, beside⟩ :=
        step_beside inert under under alone ⟨abreast, left, sub _ left⟩ done done'
      obtain ⟨w, -, like⟩ := same.stop
      obtain ⟨_, r', finished'⟩ := gives_some (finish id ending w) r₁
      obtain ⟨-, -, after, -⟩ := finish_beside inert beside like finished finished'
      refine ⟨after, ?_⟩
      filter_upwards [answered] with n answered
      exact repeated_stop inert (fun ctx' r r₁ next' under' beside done' =>
        step_beside inert under under' answered beside done done') left finished
  | allNil =>
    refine ⟨left, .of_forall fun n task' r others r' fits right walks => ?_⟩
    cases fits with
    | all _ _ abreast _ =>
      cases walks
      exact ⟨rfl, abreast.size, nofun, right⟩
  | @allCons ctx id index starts s s₁ s' ends more walks walks' ihFirst ihRest =>
    cases self with
    | all under _ abreast waiting =>
      have begins := waiting.first abreast
      obtain ⟨between, first⟩ := ihFirst (fun ctx' id' index' s₂ c leads =>
        calls ctx' id' index' s₂ c (.first leads)) left (.path under under begins)
      obtain ⟨framed, -⟩ := walks.framed begins.lt.1
      obtain ⟨abreast', waiting'⟩ := waiting.rest abreast framed framed rfl
      obtain ⟨after, rest⟩ := ihRest (fun ctx' id' index' s₂ c leads =>
        calls ctx' id' index' s₂ c (.later walks leads)) between
          (.all under under abreast' waiting')
      refine ⟨after, ?_⟩
      filter_upwards [first, rest] with n first rest
      exact repeated_allCons walks walks' first rest
  | eachNil =>
    refine ⟨left, .of_forall fun n task' r others r' fits right walks => ?_⟩
    cases fits with
    | each _ _ abreast alike =>
      cases alike
      cases walks
      exact ⟨rfl, abreast.size, nofun, right⟩
  | @eachCons ctx id index slot v values s s₁ s₂ s' ends more bound walks walks' ihFirst ihRest =>
    cases self with
    | each under _ abreast alike =>
      cases alike with
      | cons like alike =>
        obtain ⟨beside, waits⟩ :=
          each_beside inert ⟨abreast, left, sub _ left⟩ like bound bound
        have under' : (ctx.await values).Under t options := ⟨under.symbols, under.options⟩
        obtain ⟨between, first⟩ := ihFirst (fun ctx' id' index' s₂ c leads =>
          calls ctx' id' index' s₂ c (.eachFirst bound leads)) beside.left
            (.path under' under' beside.arena)
        obtain ⟨framed, -⟩ := walks.framed beside.arena.lt.1
        have same (k : Nat) (hk : k ≤ id) : s₂.1.branch? k = s₁.1.branch? k := by
          refine framed.others k (Nat.lt_of_le_of_lt hk waits.lt.1) fun mine => ?_
          exact Nat.ne_of_lt (Nat.lt_of_le_of_lt hk abreast.lt.1) (List.mem_singleton.1 mine)
        have still := waits.of_older rfl same same
        obtain ⟨after, rest⟩ := ihRest (fun ctx' id' index' s₃ c leads =>
          calls ctx' id' index' s₃ c (.eachLater bound walks leads)) between
            (.each under under still alike)
        refine ⟨after, ?_⟩
        filter_upwards [first, rest] with n first rest
        exact repeated_eachCons inert bound left walks walks' first rest

end Walks

end PathTyping
