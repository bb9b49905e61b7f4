import Mathlib.Algebra.BigOperators.Group.Finset.Basic
import Mathlib.Algebra.Order.BigOperators.Group.Finset
import PathTyping.Proofs.Coverage

/-!
# The budget of branches

A jump is only split below the budget, and makes both its branches at once, so it exceeds the
budget by one at most.  A call makes the branches for its results one after the other: there is room
for all of them when the first is made, but the paths on the earlier branches may have used it up
when the turn of a later one comes.  A path executes each call once, so this happens once for each
call of the code.

1. `spread_isCall`: only a call is continued on a branch for each of several values.
2. `Walks.size_le`: how far the arena grows on behalf of a task, by the calls that its paths have
   not executed.
3. `fewResults_budget`: a call has at most one result less than the budget allows branches.
4. `Analysis.size_resolve_le`: the size of a resolution.
-/

namespace PathTyping

open Walk

/-! ## Calls still to come -/

/-- The instruction at `index` is a call. -/
def callAt (steps : Array Step) (index : Nat) : Bool := steps[index]?.any (·.instr.isCall)

namespace Branch

/-- How many of the calls in the code the lineage of a branch has not reached. -/
def unseenCalls (steps : Array Step) (b : Branch) : Nat :=
  ((Finset.range steps.size).filter fun i => callAt steps i = true ∧ b.visits i = 0).card

theorem unseenCalls_of_visited {b b' : Branch} (steps : Array Step) (h : b'.visited = b.visited) :
    b'.unseenCalls steps = b.unseenCalls steps :=
  congrArg Finset.card (Finset.filter_congr fun i _ => by rw [visits, visits, h])

theorem unseenCalls_visit_le (steps : Array Step) (b : Branch) (index : Nat) :
    (b.visit index).unseenCalls steps ≤ b.unseenCalls steps := by
  refine Finset.card_le_card fun i hi => ?_
  obtain ⟨inside, call, unseen⟩ := Finset.mem_filter.1 hi
  refine Finset.mem_filter.2 ⟨inside, call, ?_⟩
  by_cases same : index = i
  · subst same
    rw [visits_visit_self] at unseen
    omega
  · rwa [visits_visit_of_ne b same] at unseen

theorem unseenCalls_visit_lt {steps : Array Step} {b : Branch} {index : Nat}
    (call : callAt steps index = true) (inside : index < steps.size)
    (first : b.visits index = 0) : (b.visit index).unseenCalls steps < b.unseenCalls steps := by
  refine Finset.card_lt_card ⟨fun i hi => ?_, fun sub => ?_⟩
  · obtain ⟨inside, call, unseen⟩ := Finset.mem_filter.1 hi
    refine Finset.mem_filter.2 ⟨inside, call, ?_⟩
    by_cases same : index = i
    · exact same ▸ first
    · rwa [visits_visit_of_ne b same] at unseen
  · have seen := (Finset.mem_filter.1
      (sub (Finset.mem_filter.2 ⟨Finset.mem_range.2 inside, call, first⟩))).2.2
    rw [visits_visit_self, first] at seen
    exact absurd seen (by decide)

/-- On a branch that starts afresh, all calls are still to come. -/
theorem unseenCalls_fresh_le (parent : Parent) (code : List Step) :
    (fresh parent []).unseenCalls code.toArray ≤ code.countP (·.instr.isCall) := by
  have calls : ∀ n, ((Finset.range n).filter fun i => callAt code.toArray i = true).card =
      (code.take n).countP (·.instr.isCall) := by
    intro n
    induction n with
    | zero => rfl
    | succ n ih =>
      have found : callAt code.toArray n = code[n]?.any (·.instr.isCall) := by simp [callAt]
      rw [Finset.range_add_one, Finset.filter_insert, List.take_add_one, List.countP_append, ← ih,
        found]
      cases code[n]? with
      | none => rfl
      | some instruction => cases h : instruction.instr.isCall <;> simp [h]
  calc (fresh parent []).unseenCalls code.toArray
      ≤ ((Finset.range code.length).filter fun i => callAt code.toArray i = true).card :=
        Finset.card_le_card fun i hi => by
          obtain ⟨inside, call, -⟩ := Finset.mem_filter.1 hi
          exact Finset.mem_filter.2 ⟨inside, call⟩
    _ = code.countP (·.instr.isCall) := by rw [calls, List.take_length]

end Branch

/-! ## Steps that make branches -/

/-- What `x` gives is not to be continued on a branch for each of several values. -/
def Walk.NeverSpreads (x : Walk Next) : Prop :=
  ∀ ⦃s slot values target s'⦄, ¬ Gives x s (.spread slot values target) s'

namespace Walk

theorem neverSpreads_pure {next : Next}
    (h : ∀ slot values target, next ≠ .spread slot values target) :
    NeverSpreads (pure next) := fun _ slot values target _ given =>
  h slot values target (gives_pure_iff.1 given).1.symm

theorem neverSpreads_bind {α : Type} {x : Walk α} {f : α → Walk Next}
    (h : ∀ v, NeverSpreads (f v)) : NeverSpreads (x >>= f) := fun _ _ _ _ _ given => by
  obtain ⟨v, s₁, -, given⟩ := gives_bind_iff.1 given
  exact h v given

theorem neverSpreads_fork (options : AnalysisOptions) (id target index : Nat) :
    NeverSpreads (fork options id target index) := by
  refine neverSpreads_bind fun a => ?_
  split
  · exact neverSpreads_pure nofun
  · split
    · exact neverSpreads_bind fun _ => neverSpreads_bind fun _ => neverSpreads_pure nofun
    · exact neverSpreads_bind fun _ => neverSpreads_pure nofun

theorem neverSpreads_execute {invoke : Invoke} {ctx : Context} {id index : Nat} {step : Step}
    (other : step.instr.isCall = false) : NeverSpreads (execute invoke ctx id index step) := by
  have goesOn {α : Type} (x : Walk α) (next : Nat) :
      NeverSpreads (do let _ ← x; return .next next) :=
    neverSpreads_bind fun _ => neverSpreads_pure nofun
  obtain ⟨instr, span⟩ := step
  unfold execute
  cases instr with
  | const result l => exact goesOn _ _
  | unary result op x => exact neverSpreads_bind fun _ => goesOn _ _
  | binary result x op y => exact neverSpreads_bind fun _ => neverSpreads_bind fun _ => goesOn _ _
  | goto target => exact neverSpreads_pure nofun
  | gotoIf target condition expected => exact neverSpreads_bind fun _ => neverSpreads_fork _ _ _ _
  | call result callee arguments => cases other
  | load result name => exact neverSpreads_bind fun _ => goesOn _ _
  | member result target name => exact neverSpreads_bind fun _ => goesOn _ _
  | index result target key =>
    exact neverSpreads_bind fun _ => neverSpreads_bind fun _ => neverSpreads_bind fun _ =>
      goesOn _ _
  | store name value => exact neverSpreads_bind fun _ => goesOn _ _
  | ret value => cases value <;> exact neverSpreads_bind fun _ => neverSpreads_pure nofun

/-- Only a call is continued on a branch for each of several values. -/
theorem spread_isCall {invoke : Invoke} {ctx : Context} {steps : Array Step} {id index : Nat}
    {s s' : State} {slot : Slot} {values : List Value} {target : Nat}
    (given : Gives (step invoke ctx steps id index) s (.spread slot values target) s') :
    callAt steps index = true := by
  by_contra other
  have plain : NeverSpreads (step invoke ctx steps id index) := by
    unfold step
    split
    · exact neverSpreads_bind fun _ => neverSpreads_pure nofun
    · next instruction found =>
      have noCall : instruction.instr.isCall = false := by
        simpa [callAt, found] using other
      refine neverSpreads_bind fun first => ?_
      split
      · exact neverSpreads_execute noCall
      · exact neverSpreads_bind fun _ => neverSpreads_bind fun _ => neverSpreads_pure nofun
  exact plain given

end Walk

/-! ## How far the arena grows -/

/-- The size that an arena of `size` branches can come to where `calls` calls are still to come,
each of which is continued with at most `n` values: the budget, one more for the last jump, and for
each call the values whose turn may come when the budget is used up. -/
def ceiling (n budget calls size : Nat) : Nat :=
  budget + 1 + ∑ i ∈ Finset.range calls, min (n - 1) (budget - (size + 1) - i)

theorem ceiling_succ (n budget calls size : Nat) :
    ceiling n budget (calls + 1) size =
      ceiling n budget calls (size + 1) + min (n - 1) (budget - (size + 1)) := by
  rw [ceiling, Finset.sum_range_succ', ← Nat.add_assoc, Nat.sub_zero]
  congr 2
  refine Finset.sum_congr rfl fun i _ => ?_
  congr 1
  omega

theorem ceiling_antitone (n budget calls : Nat) {size size' : Nat} (h : size ≤ size') :
    ceiling n budget calls size' ≤ ceiling n budget calls size :=
  Nat.add_le_add_left (Finset.sum_le_sum fun i _ => by omega) _

theorem budget_lt_ceiling (n budget calls size : Nat) : budget < ceiling n budget calls size :=
  Nat.lt_of_lt_of_le (Nat.lt_succ_self _) (Nat.le_add_right _ _)

/-- Up to one above the budget, an arena may grow without coming to more. -/
theorem ceiling_grown (n calls : Nat) {budget size size' : Nat} (grown : size ≤ size')
    (room : size' ≤ budget + 1) :
    max size' (ceiling n budget calls size') ≤ max size (ceiling n budget calls size) := by
  have less := ceiling_antitone n budget calls grown
  have below := budget_lt_ceiling n budget calls size
  exact max_le (by omega) (less.trans (Nat.le_max_right _ _))

namespace Task

/-- At most `calls` calls are still to come for a path on branch `id`. -/
def Few (steps : Array Step) (calls : Nat) (a : Arena) (id : Nat) : Prop :=
  ∃ b, a.branch? id = some b ∧ b.unseenCalls steps ≤ calls

/-- At most `calls` calls are still to come on each path of the task. -/
def Ahead (steps : Array Step) (calls : Nat) (a : Arena) : Task → Prop
  | path _ id _ => Few steps calls a id
  | all _ starts => (starts.map Prod.fst).Nodup ∧ ∀ start ∈ starts, Few steps calls a start.1
  | each _ id _ _ _ => Few steps calls a id

/-- The size that an arena of `size` branches can come to on behalf of the task. -/
def limit (n calls size : Nat) (task : Task) : Nat :=
  let budget := task.options.maxBranches
  match task with
  | each _ _ _ values _ =>
    max (size + values.length) (ceiling n budget calls (size + 1) + values.length - 1)
  | _ => max size (ceiling n budget calls size)

variable {steps : Array Step} {calls : Nat} {a a' : Arena} {id : Nat}

theorem Few.lt (h : Few steps calls a id) : id < a.size :=
  h.elim fun _ hb => Arena.lt_size_of_branch? hb.1

theorem Few.of_eq (h : Few steps calls a id) (same : a'.branch? id = a.branch? id) :
    Few steps calls a' id := h.imp fun _ hb => ⟨same.trans hb.1, hb.2⟩

theorem Few.child (h : Few steps calls a id) : Few steps calls (a.child id) a.size := by
  obtain ⟨b, found, few⟩ := h
  refine ⟨_, a.branch?_child_size id, ?_⟩
  rw [found, Option.elim_some]
  exact (Branch.unseenCalls_of_visited steps rfl).trans_le few

theorem Few.bound {s s' : State} {other : Nat} (h : Few steps calls s.1 id)
    (bound : Bound other s s') : Few steps calls s'.1 id := by
  obtain ⟨b, found, few⟩ := h
  obtain ⟨f, hf, arena⟩ := bound
  rw [arena]
  by_cases same : other = id
  · refine ⟨f b, by rw [Arena.branch?_modify, if_pos same, found, Option.map_some], ?_⟩
    rwa [Branch.unseenCalls_of_visited steps (hf.visited b)]
  · exact ⟨b, (Arena.branch?_modify_of_ne _ f same).trans found, few⟩

end Task

section Size

variable {invoke : Invoke} {steps : Array Step} {P : Context → Nat → Nat → State → Prop}
  {ctx : Context} {id index calls n : Nat} {s s' : State} {task : Task} {next : Next}
  {ends : List Nat}

/-- A call is continued with at most `n` values, if it is continued with each of them. -/
def SpreadsAtMost (n : Nat) (invoke : Invoke) (steps : Array Step) (ctx : Context) (id index : Nat)
    (s : State) : Prop :=
  ∀ slot values target s',
    Gives (step invoke ctx steps id index) s (.spread slot values target) s' → values.length ≤ n

/-- A step leads to a task that stays below what its path can come to. -/
theorem step_ahead (few : Task.Few steps calls s.1 id)
    (done : Gives (step invoke ctx steps id index) s next s')
    (spreads : ∀ slot values target, next = .spread slot values target → values.length ≤ n)
    (goes : next.task? ctx id = some task) :
    ∃ calls', task.Ahead steps calls' s'.1 ∧
      task.limit n calls' s'.1.size ≤ (Task.path ctx id index).limit n calls s.1.size := by
  obtain ⟨b, found, few⟩ := few
  obtain ⟨a, b', apart, found', -, advances, prepared⟩ := step_goes found done
  have size : a.size = s.1.size := apart.size
  -- Where the path goes on, no more calls are to come than before.
  have onward (h : b'.visited = (b.visit index).visited) : Task.Few steps calls a id := by
    refine ⟨b', found', ?_⟩
    rw [Branch.unseenCalls_of_visited steps h]
    exact (b.unseenCalls_visit_le steps index).trans few
  generalize s'.1 = a' at prepared ⊢
  cases next with
  | next target =>
    cases goes
    obtain rfl : a' = a := prepared
    exact ⟨calls, onward advances.2.2, le_of_eq (by rw [size]; rfl)⟩
  | stop t v => cases goes
  | split starts =>
    cases goes
    have parent := onward advances.2.2
    obtain ⟨room, prepared⟩ := prepared
    refine ⟨calls, ?_⟩
    cases mode : ctx.options.forkMode with
    | symmetric =>
      rw [mode] at prepared
      obtain ⟨rfl, i, j, rfl⟩ := prepared
      have kept : Task.Few steps calls (a.child id) id :=
        parent.of_eq (a.branch?_child_of_lt id parent.lt)
      have taken := kept.child
      rw [Arena.size_child] at taken
      refine ⟨⟨by simp, fun start hs => ?_⟩, ?_⟩
      · rcases List.mem_pair.1 hs with rfl | rfl
        · exact parent.child.of_eq (Arena.branch?_child_of_lt _ id (by simp))
        · exact taken
      · simp only [Task.limit, Task.options, Arena.size_child, size]
        exact ceiling_grown n calls (by omega) (by omega)
    | fallthroughOnly =>
      rw [mode] at prepared
      obtain ⟨rfl, i, rfl⟩ := prepared
      refine ⟨⟨List.nodup_singleton _, fun start hs => ?_⟩, ?_⟩
      · exact List.mem_singleton.1 hs ▸ parent.child
      · simp only [Task.limit, Task.options, Arena.size_child, size]
        exact ceiling_grown n calls (by omega) (by omega)
  | spread slot values target =>
    cases goes
    obtain ⟨rfl, several, room⟩ := prepared
    obtain ⟨inside, first, visited⟩ := advances
    have less := Branch.unseenCalls_visit_lt (spread_isCall done) inside first
    rw [← Branch.unseenCalls_of_visited steps visited] at less
    obtain ⟨calls, rfl⟩ : ∃ k, calls = k + 1 := ⟨calls - 1, by omega⟩
    refine ⟨calls, ⟨b', found', by omega⟩, ?_⟩
    have most := spreads _ _ _ rfl
    have step := ceiling_succ n ctx.options.maxBranches calls s.1.size
    have below := budget_lt_ceiling n ctx.options.maxBranches calls (s.1.size + 1)
    simp only [Task.limit, Task.options, size] at room ⊢
    omega

/-- What holds of all branches of arenas holds throughout the walk. -/
theorem Walks.of_stands {options : AnalysisOptions} {Q : Context → Nat → Nat → State → Prop}
    (holds : ∀ ctx id index s, ctx.options = options → id < s.1.size → Q ctx id index s)
    (h : Walks invoke steps P task s ends s') (stands : task.Stands s.1)
    (same : task.options = options) : Walks invoke steps Q task s ends s' := by
  induction h with
  | onward _ done goes _ ih =>
    have stands' := ((step_framed stands done).2 _ goes).1
    exact .onward (holds _ _ _ _ same stands) done goes
      (ih stands' ((Next.options_task goes).trans same))
  | stop _ done finished => exact .stop (holds _ _ _ _ same stands) done finished
  | allNil => exact .allNil
  | allCons first _ ih ih' =>
    have mine := stands _ List.mem_cons_self
    exact .allCons (ih mine same) (ih' (Task.Stands.rest stands (first.framed mine).1.grows) same)
  | eachNil => exact .eachNil
  | @eachCons ctx id index slot v values s s₁ s₂ s' ends more bound first _ ih ih' =>
    have new : s.1.size < s₁.1.size := size_of_bound bound ▸ Nat.lt_succ_self _
    obtain ⟨framed, -⟩ := first.framed (show (Task.path _ s.1.size index).Stands s₁.1 from new)
    have parent : id < s₂.1.size := Nat.lt_of_lt_of_le (Nat.lt_trans stands new) framed.grows
    exact .eachCons bound (ih new same) (ih' parent same)

/-- There is no room for as many values as the budget allows branches. -/
theorem spreadsAtMost_of_stands (stands : id < s.1.size) :
    SpreadsAtMost (ctx.options.maxBranches - 1) invoke steps ctx id index s := by
  intro slot values target s' given
  obtain ⟨b, found⟩ := Arena.exists_branch stands
  obtain ⟨a, -, apart, -, -, -, -, -, room⟩ := step_goes found given
  have size : a.size = s.1.size := apart.size
  omega

/-- A walk stays below what its task can come to. -/
theorem Walks.size_le (h : Walks invoke steps (SpreadsAtMost n invoke steps) task s ends s')
    (ahead : task.Ahead steps calls s.1) : s'.1.size ≤ task.limit n calls s.1.size := by
  induction h generalizing calls with
  | onward few done goes _ ih =>
    obtain ⟨calls', ahead', less⟩ := step_ahead ahead done
      (fun _ _ _ spread => few _ _ _ _ (spread ▸ done)) goes
    exact (ih ahead').trans less
  | @stop ctx id index s s₁ s' t v _ done finished =>
    obtain ⟨b, found, -⟩ := ahead
    obtain ⟨a, -, apart, -, -, -, stopped⟩ := step_goes found done
    obtain rfl : s₁.1 = a := stopped
    have size : s'.1.size = s.1.size := (finish_apart finished).size.trans apart.size
    exact size ▸ Nat.le_max_left _ _
  | allNil => exact Nat.le_max_left _ _
  | @allCons ctx id index starts s s₁ s' ends more first _ ih ih' =>
    obtain ⟨apart, few⟩ := ahead
    obtain ⟨notLater, apart⟩ := List.nodup_cons.1 apart
    have mine := few _ List.mem_cons_self
    obtain ⟨framed, -⟩ := first.framed mine.lt
    have others : (Task.all ctx starts).Ahead steps calls s₁.1 := by
      refine ⟨apart, fun start hs => ?_⟩
      have later := few start (List.mem_cons_of_mem _ hs)
      refine later.of_eq (framed.others _ later.lt fun same => notLater ?_)
      exact List.mem_map.2 ⟨start, hs, List.mem_singleton.1 same⟩
    have less := ceiling_antitone n ctx.options.maxBranches calls framed.grows
    have one := ih mine
    have rest := ih' others
    simp only [Task.limit, Task.options] at one rest ⊢
    omega
  | eachNil => exact Nat.le_max_left _ _
  | @eachCons ctx id index slot v values s s₁ s₂ s' ends more bound first _ ih ih' =>
    have size := size_of_bound bound
    have new : Task.Few steps calls s₁.1 s.1.size := ahead.child.bound (bindSlot_bound bound)
    have kept : Task.Few steps calls s₁.1 id :=
      (ahead.of_eq (s.1.branch?_child_of_lt id ahead.lt)).bound (bindSlot_bound bound)
    obtain ⟨framed, -⟩ := first.framed new.lt
    have parent : Task.Few steps calls s₂.1 id :=
      kept.of_eq (framed.others id kept.lt fun same =>
        Nat.ne_of_lt ahead.lt (List.mem_singleton.1 same))
    have grown : s.1.size + 1 ≤ s₂.1.size + 1 := by have := framed.grows; omega
    have less := ceiling_antitone n ctx.options.maxBranches calls grown
    have one := ih new
    have rest := ih' parent
    simp only [Task.limit, Task.options, Context.await, List.length_cons, size] at one rest ⊢
    omega

end Size

/-! ## Resolutions -/

section Resolve

variable {invoke : Invoke} {ctx : Context} {code : Code} {scope : Scope}
  {locals : List (String × Value)} {m : Memory}

/-- No call of a resolution is continued on more than `n` branches. -/
def FewResults (n : Nat) (invoke : Invoke) (ctx : Context) (code : Code) (scope : Scope)
    (locals : List (String × Value)) (m : Memory) : Prop :=
  ∃ s ends s', Gives (openRoot scope locals) (.empty, m) () s ∧
    Walks invoke code.steps.toArray (SpreadsAtMost n invoke code.steps.toArray) (.path ctx 0 0) s
      ends s'

/-- No call is continued on as many branches as the budget allows: one of these is the root. -/
theorem fewResults_budget (invoke : Invoke) (ctx : Context) (code : Code) (scope : Scope)
    (locals : List (String × Value)) (m : Memory) :
    FewResults (ctx.options.maxBranches - 1) invoke ctx code scope locals m := by
  obtain ⟨s, ends, s', opened, walks, -⟩ := resolve_walks invoke ctx code scope locals m
  have root : (Task.path ctx 0 0).Stands s.1 :=
    Nat.lt_of_lt_of_eq Nat.one_pos (openRoot_bound opened).apart.size.symm
  refine ⟨s, ends, s', opened, walks.of_stands (fun ctx' id index s same stands => ?_) root rfl⟩
  rw [show ctx.options = ctx'.options from same.symm]
  exact spreadsAtMost_of_stands stands

theorem size_resolve_le_of_fewResults {n : Nat}
    (few : FewResults n invoke ctx code scope locals m) :
    ((Analysis.resolve invoke ctx code scope locals).run m).1.arena.size ≤
      max 1 ctx.options.maxBranches + 1 +
        ∑ i ∈ Finset.range (code.steps.countP (·.instr.isCall)),
          min (n - 1) (ctx.options.maxBranches - 2 - i) := by
  obtain ⟨s, ends, s', opened, walks, resolved⟩ := resolve_walks invoke ctx code scope locals m
  obtain ⟨_, _, _, opened', walks'⟩ := few
  obtain ⟨-, rfl⟩ := opened.unique opened'
  obtain ⟨-, rfl⟩ := walks.unique walks'
  have root : Task.Few code.steps.toArray (code.steps.countP (·.instr.isCall)) s.1 0 :=
    Task.Few.bound ⟨_, Arena.branch?_push_size .empty _, Branch.unseenCalls_fresh_le _ _⟩
      (openRoot_bound opened)
  have one : s.1.size = 1 := (openRoot_bound opened).apart.size
  have bounded := walks'.size_le root
  rw [resolved]
  rw [one] at bounded
  refine bounded.trans (max_le (by omega) ?_)
  exact Nat.add_le_add_right (Nat.add_le_add_right (Nat.le_max_right _ _) _) _

/-- A resolution makes at most one branch more than its budget, and for each call the branches for
results whose turn may come when the budget is used up.  With `n` results at most for each call that
is continued on several branches, these are `n - 1` at most: none if no call has several. -/
theorem Analysis.size_resolve_le (invoke : Invoke) (ctx : Context) (code : Code) (scope : Scope)
    (locals : List (String × Value)) (m : Memory) :
    let size := ((Analysis.resolve invoke ctx code scope locals).run m).1.arena.size
    let budget := ctx.options.maxBranches
    let calls := code.steps.countP (·.instr.isCall)
    size ≤ max 1 budget + 1 + ∑ i ∈ Finset.range calls, (budget - 2 - i) ∧
      ∀ n, FewResults n invoke ctx code scope locals m →
        size ≤ max 1 budget + 1 + ∑ i ∈ Finset.range calls, min (n - 1) (budget - 2 - i) := by
  refine ⟨?_, fun n few => size_resolve_le_of_fewResults few⟩
  have bounded := size_resolve_le_of_fewResults (fewResults_budget invoke ctx code scope locals m)
  refine bounded.trans (Nat.add_le_add_left (Finset.sum_le_sum fun i _ => ?_) _)
  exact Nat.min_le_right _ _

end Resolve

/-! ### A call whose results come in turn -/

/-- The branch for the first result of `pick` has room for both sides of the jump, and then the
branch for the second exceeds the budget. -/
def turnsText : String :=
  "fn pick(c) \x7b\n  if c \x7b return 1 \x7d\n  return \"s\"\n\x7d\n" ++
    "fn f(c) \x7b\n  pick(c)\n  if c \x7b print(c) \x7d\n  return 1\n\x7d\n"

def turnsOptions : AnalysisOptions := ⟨.symmetric, 32, 3⟩

def turns : Compilation := ((Compilation.ofText turnsOptions turnsText).toOption).getD default

def turnsCode : Code := ((turns.symbols.method 1).decl.toCode).toOption.getD default

/-- The body has as many branches when it is resolved as when its function is asked about. -/
theorem size_turns :
    let ctx : Context := .outer turns.symbols turnsOptions
    let scope : Scope := ⟨some 1, none⟩
    (Compilation.ofText turnsOptions turnsText).toOption.isSome = true ∧
      turnsCode.steps.countP (·.instr.isCall) = 2 ∧
      ((Analysis.resolve (Analysis.calls ctx .empty) ctx turnsCode scope
        (turns.symbols.scopeVariables scope)).run .empty).1.arena.size = 5 ∧
      ((Analysis.resolveMethod ctx 1).run .empty).1.arena.size = 5 := by
  have row : TokenRow.ofText turnsText = _ :=
    TokenRow.ofText_of_eq_append (by unfold turnsText; with_reducible rfl)
  dsimp only
  rw [turnsCode, turns, Compilation.ofText, Module.ofText, row]
  decide +kernel

/-- The bound is reached: two calls are in the code, and when the turn of the second result of the
first comes, the budget is used up. -/
theorem size_resolve_le_turns :
    let ctx : Context := .outer turns.symbols turnsOptions
    let scope : Scope := ⟨some 1, none⟩
    let locals := turns.symbols.scopeVariables scope
    let invoke := Analysis.calls ctx .empty
    let size := ((Analysis.resolve invoke ctx turnsCode scope locals).run .empty).1.arena.size
    FewResults 2 invoke ctx turnsCode scope locals .empty ∧
      size ≤ max 1 3 + 1 + ∑ i ∈ Finset.range 2, min (2 - 1) (3 - 2 - i) ∧
        max 1 3 + 1 + ∑ i ∈ Finset.range 2, min (2 - 1) (3 - 2 - i) = 5 ∧ size = 5 := by
  dsimp only
  obtain ⟨-, calls, reached, -⟩ := size_turns
  have few := fewResults_budget (Analysis.calls (.outer turns.symbols turnsOptions) .empty)
    (.outer turns.symbols turnsOptions) turnsCode ⟨some 1, none⟩
    (turns.symbols.scopeVariables ⟨some 1, none⟩) .empty
  have bounded := (Analysis.size_resolve_le _ _ _ _ _ _).2 2 few
  rw [calls] at bounded
  exact ⟨few, bounded, by decide, reached⟩

/-- The query for the function makes one branch more than a jump may. -/
theorem size_exceeds_budget_turns :
    let r := ((Analysis.resolveMethod (.outer turns.symbols turnsOptions) 1).run .empty).1
    Compilation.ofText turnsOptions turnsText = .ok turns ∧ r.arena.size = 5 ∧
      ¬ r.arena.size ≤ max 1 turnsOptions.maxBranches + 1 := by
  obtain ⟨read, -, -, size⟩ := size_turns
  refine ⟨eq_ok_of_isSome read, size, ?_⟩
  rw [size]
  decide

end PathTyping
