import PathTyping.Proofs.Refinement
import PathTyping.Proofs.Annotations
import PathTyping.Proofs.Joins

/-!
# Paths that the returned type covers

A path through code is followed without the guard against loops, instruction by instruction; which
side of a jump and which result of a call it takes is given by a list of choices.  What lies before
the choice is explored first, as by the analysis, since that is what the analysis remembers when it
comes to the choice.

A path that executes no instruction twice is one that the analysis follows to its end.  One that
comes back to an instruction was cut off there, and what it returns may be lost: a value that is
assigned in the body of a loop reaches the code behind the loop only where the condition is executed
a second time.

1. A point has the endings of every point that comes next, unless its instruction was executed
   before (`Point.endings_subset`).
2. Along any path, its ending is found or one that was cut off (`Point.covers_along`).
3. What a path returns is of the type that the resolution has for what is returned, or the path has
   been cut off where another was not (`paths_covered`).
-/

namespace PathTyping

open Walk Enumeration Analysis

/-- Where a path stands that is followed without the guard against loops. -/
structure Point where
  invoke : Invoke
  steps : Array Step
  scope : Scope
  ctx : Context
  /-- The instructions that the path has executed, the latest first. -/
  trail : List Nat
  env : Env
  index : Nat
  /-- What the paths before this one have left behind. -/
  kept : List Value
  memory : Memory

namespace Point

/-- What the guarded enumeration finds from here, and what it leaves behind. -/
def explored (p : Point) : (List Ending × List Value) × Memory :=
  ((follow p.invoke p.steps p.scope p.ctx p.trail.toFinset p.env p.index).run p.kept).run p.memory

def endings (p : Point) : List Ending := p.explored.1.1

/-- The starts behind a jump, each after the paths from the ones before it. -/
def atTargets (p : Point) : List Nat → List Value → Memory → List Point
  | [], _, _ => []
  | target :: rest, kept, m =>
    let q := { p with index := target, kept := kept, memory := m }
    q :: p.atTargets rest q.explored.1.2 q.explored.2

/-- The starts behind a call, one for each of its results. -/
def withResults (p : Point) (slot : Slot) : List Value → List Value → Memory → List Point
  | [], _, _ => []
  | v :: rest, kept, m =>
    let bound := ((Track.bindSlot slot v).run p.env.split).run m
    let q := { p with ctx := p.ctx.await rest, env := bound.1.2, kept := kept, memory := bound.2 }
    q :: p.withResults slot rest q.explored.1.2 q.explored.2

/-- What the instruction does, whether or not the path has executed it before. -/
def executed (p : Point) (step : Step) : (Turn × Env) × Memory :=
  ((Track.execute p.invoke p.ctx p.scope p.kept p.index step).run p.env).run p.memory

/-- The point behind the instruction, where it turns to `index`. -/
def behind (p : Point) (step : Step) (index : Nat) : Point :=
  { p with
    trail := p.index :: p.trail
    env := (p.executed step).1.2
    index := index
    memory := (p.executed step).2 }

/-- Where a path can stand after one more instruction. -/
def nexts (p : Point) : List Point :=
  match p.steps[p.index]? with
  | none => []
  | some step =>
    match (p.executed step).1.1 with
    | .onward target => [p.behind step target]
    | .ended _ _ => []
    | .forked targets =>
      let q := p.behind step p.index
      { q with env := q.env.split }.atTargets targets (q.env.values ++ q.kept) q.memory
    | .called slot results target =>
      let q := p.behind step target
      q.withResults slot results (q.env.values ++ q.kept) q.memory

/-- What the path returns if it ends here. -/
def result? (p : Point) : Option Value :=
  match p.steps[p.index]? with
  | none => some (p.env.recent.head?.getD .nil)
  | some step =>
    match (p.executed step).1.1 with
    | .ended .return_ v => some v
    | _ => none

/-- Where the path has come that takes these choices. -/
def along : List Nat → Point → Option Point
  | [], p => some p
  | choice :: rest, p => p.nexts[choice]?.bind (along rest)

/-- Where a path through the code starts. -/
def start (invoke : Invoke) (ctx : Context) (code : Code) (scope : Scope)
    (locals : List (String × Value)) (m : Memory) : Point :=
  let bound := ((locals.forM fun (name, v) => Track.bindVariable name v).run ⟨[], [], []⟩).run m
  ⟨invoke, code.steps.toArray, scope, ctx, [], bound.1.2, 0, [], bound.2⟩

/-- The instructions that a path has executed which ends here. -/
def course (p : Point) : List Nat := p.index :: p.trail

/-! ## One instruction -/

variable {p q : Point} {step : Step}

theorem gives_explored (p : Point) :
    Gives (follow p.invoke p.steps p.scope p.ctx p.trail.toFinset p.env p.index)
      (p.kept, p.memory) p.endings (p.explored.1.2, p.explored.2) := rfl

theorem endings_of_gives {found : List Ending} {s : List Value × Memory}
    (h : Gives (follow p.invoke p.steps p.scope p.ctx p.trail.toFinset p.env p.index)
      (p.kept, p.memory) found s) : p.endings = found :=
  (p.gives_explored.unique h).1

theorem gives_finish (env : Env) (t : Termination) (v : Value) (kept : List Value) (m : Memory) :
    ∃ s, Gives (Enumeration.finish env t v) (kept, m) [(t, (m.place v).1)] s :=
  ⟨_, gives_bind (gives_lift_iff.2 ⟨rfl, rfl⟩) (gives_bind (gives_keep _ _) rfl)⟩

theorem gives_first (found : p.steps[p.index]? = some step) (first : p.index ∉ p.trail)
    {endings : List Ending} {s : List Value × Memory}
    (h : Gives (after p.invoke p.steps p.scope p.ctx (p.index :: p.trail).toFinset
      (p.executed step).1.2 (p.executed step).1.1) (p.kept, (p.executed step).2) endings s) :
    p.endings = endings := by
  refine endings_of_gives (s := s) ?_
  rw [follow_first found (by rwa [List.mem_toFinset]), ← List.toFinset_cons]
  refine gives_bind (gives_get_iff.2 ⟨rfl, rfl⟩) ?_
  exact gives_bind (gives_lift_iff.2 ⟨rfl, rfl⟩) h

/-- A path that has ended is found. -/
theorem mem_endings_of_result {v : Value} (h : p.result? = some v)
    (first : (p.steps[p.index]?).isSome → p.index ∉ p.trail) :
    ∃ t w, (t, w) ∈ p.endings ∧ t ≠ .loopCutoff ∧ w.type = v.type := by
  unfold result? at h
  cases found : p.steps[p.index]? with
  | none =>
    rw [found] at h
    cases h
    obtain ⟨s, ended⟩ :=
      gives_finish p.env .fallThrough (p.env.recent.head?.getD .nil) p.kept p.memory
    rw [endings_of_gives ((follow_of_end found).symm ▸ ended)]
    exact ⟨_, _, List.mem_singleton_self _, nofun, Value.place_type _ _⟩
  | some step =>
    rw [found] at h
    dsimp only at h
    split at h
    · next u turn =>
      cases h
      obtain ⟨s, ended⟩ :=
        gives_finish (p.executed step).1.2 .return_ v p.kept (p.executed step).2
      rw [gives_first found (first (found ▸ rfl)) (by rw [turn]; exact ended)]
      exact ⟨_, _, List.mem_singleton_self _, nofun, Value.place_type _ _⟩
    · cases h

/-- A path that comes back to an instruction is cut off. -/
theorem mem_endings_of_again (found : p.steps[p.index]? = some step) (again : p.index ∈ p.trail) :
    ∃ w, (.loopCutoff, w) ∈ p.endings ∧ w.type = .any := by
  obtain ⟨s, ended⟩ := gives_finish p.env .loopCutoff .any p.kept
    ((Analysis.report (.loopCutoff (p.scope.method.elim "<expression>"
      p.ctx.symbols.qualifiedName)) step.span).run p.memory).2
  have given : p.endings = _ := endings_of_gives (by
    rw [follow_again found (by rwa [List.mem_toFinset])]
    exact gives_bind (gives_lift_iff.2 ⟨rfl, rfl⟩) ended)
  rw [given]
  exact ⟨_, List.mem_singleton_self _, Value.place_type .any _⟩

/-- A row of starts has the endings of each of them. -/
theorem endings_atTargets {targets : List Nat} {kept : List Value} {m : Memory}
    (h : q ∈ p.atTargets targets kept m) :
    ∃ endings s, Gives (gather (follow p.invoke p.steps p.scope p.ctx p.trail.toFinset p.env)
      targets) (kept, m) endings s ∧ q.endings ⊆ endings := by
  induction targets generalizing kept m with
  | nil => cases h
  | cons target rest ih =>
    let q' := { p with index := target, kept := kept, memory := m }
    have explored := q'.gives_explored
    rcases List.mem_cons.1 h with rfl | h
    · obtain ⟨others, s, given⟩ :=
        gives_some (gather (follow p.invoke p.steps p.scope p.ctx p.trail.toFinset p.env) rest)
          (q'.explored.1.2, q'.explored.2)
      exact ⟨_, s, gives_bind explored (gives_bind given rfl), List.subset_append_left _ _⟩
    · obtain ⟨others, s, given, sub⟩ := ih h
      exact ⟨_, s, gives_bind explored (gives_bind given rfl),
        List.subset_append_of_subset_right _ sub⟩

/-- A call has the endings that each of its results has. -/
theorem endings_withResults {slot : Slot} {results : List Value} {kept : List Value} {m : Memory}
    (h : q ∈ p.withResults slot results kept m) :
    ∃ endings s, Gives (gatherEach (fun ctx env =>
      follow p.invoke p.steps p.scope ctx p.trail.toFinset env p.index) p.ctx p.env slot results)
        (kept, m) endings s ∧ q.endings ⊆ endings := by
  induction results generalizing kept m with
  | nil => cases h
  | cons v rest ih =>
    let bound := ((Track.bindSlot slot v).run p.env.split).run m
    let q' := { p with ctx := p.ctx.await rest, env := bound.1.2, kept := kept, memory := bound.2 }
    have binds : Gives (liftM ((Track.bindSlot slot v).run p.env.split) :
        Enumeration (Unit × Env)) (kept, m) bound.1 (kept, bound.2) := gives_lift_iff.2 ⟨rfl, rfl⟩
    have explored := q'.gives_explored
    rcases List.mem_cons.1 h with rfl | h
    · obtain ⟨others, s, given⟩ := gives_some (gatherEach (fun ctx env =>
        follow p.invoke p.steps p.scope ctx p.trail.toFinset env p.index) p.ctx p.env slot rest)
          (q'.explored.1.2, q'.explored.2)
      exact ⟨_, s, gives_bind binds (gives_bind explored (gives_bind given rfl)),
        List.subset_append_left _ _⟩
    · obtain ⟨others, s, given, sub⟩ := ih h
      exact ⟨_, s, gives_bind binds (gives_bind explored (gives_bind given rfl)),
        List.subset_append_of_subset_right _ sub⟩

/-- A point has the endings of every point that comes next. -/
theorem endings_subset (h : q ∈ p.nexts) (first : p.index ∉ p.trail) :
    q.endings ⊆ p.endings := by
  unfold nexts at h
  cases found : p.steps[p.index]? with
  | none => rw [found] at h; cases h
  | some step =>
    rw [found] at h
    dsimp only at h
    split at h
    · next target turn =>
      obtain rfl := List.mem_singleton.1 h
      rw [gives_first found first (by rw [turn]; exact (p.behind step target).gives_explored)]
      exact List.Subset.refl _
    · cases h
    · next targets turn =>
      obtain ⟨endings, s, given, sub⟩ := endings_atTargets h
      rw [gives_first found first (by rw [turn]; exact gives_bind (gives_keep _ _) given)]
      exact sub
    · next slot results target turn =>
      obtain ⟨endings, s, given, sub⟩ := endings_withResults h
      rw [gives_first found first (by rw [turn]; exact gives_bind (gives_keep _ _) given)]
      exact sub

/-! ## Whole paths -/

theorem trail_atTargets {targets : List Nat} {kept : List Value} {m : Memory}
    (h : q ∈ p.atTargets targets kept m) : q.trail = p.trail := by
  induction targets generalizing kept m with
  | nil => cases h
  | cons target rest ih =>
    rcases List.mem_cons.1 h with rfl | h
    · rfl
    · exact ih h

theorem trail_withResults {slot : Slot} {results : List Value} {kept : List Value} {m : Memory}
    (h : q ∈ p.withResults slot results kept m) : q.trail = p.trail := by
  induction results generalizing kept m with
  | nil => cases h
  | cons v rest ih =>
    rcases List.mem_cons.1 h with rfl | h
    · rfl
    · exact ih h

/-- A path that goes on has executed the instruction. -/
theorem trail_of_mem_nexts (h : q ∈ p.nexts) : q.trail = p.course := by
  unfold nexts at h
  split at h
  · cases h
  · split at h
    · exact List.mem_singleton.1 h ▸ rfl
    · cases h
    · exact trail_atTargets h
    · exact trail_withResults h

theorem course_along {choices : List Nat} (h : along choices p = some q) :
    p.course <:+ q.course := by
  induction choices generalizing p with
  | nil => cases h; exact List.suffix_rfl
  | cons choice rest ih =>
    obtain ⟨next, chosen, h⟩ := Option.bind_eq_some_iff.1 h
    have onward : p.course <:+ next.course :=
      trail_of_mem_nexts (List.mem_of_getElem? chosen) ▸ List.suffix_cons _ _
    exact onward.trans (ih h)

/-- Where a path ends, its ending is found, unless it has executed an instruction twice and was cut
off there. -/
theorem covers_along {choices : List Nat} {v : Value} (h : along choices p = some q)
    (ended : q.result? = some v) :
    (∃ t w, (t, w) ∈ p.endings ∧ t ≠ .loopCutoff ∧ w.type = v.type) ∨
      ¬ q.course.Nodup ∧ ∃ w, (.loopCutoff, w) ∈ p.endings ∧ w.type = .any := by
  induction choices generalizing p with
  | nil =>
    obtain rfl : q = p := (Option.some.inj h).symm
    by_cases again : (q.steps[q.index]?).isSome ∧ q.index ∈ q.trail
    · obtain ⟨step, found⟩ := Option.isSome_iff_exists.1 again.1
      refine .inr ⟨fun once => ?_, mem_endings_of_again found again.2⟩
      exact (List.nodup_cons.1 once).1 again.2
    · exact .inl (mem_endings_of_result ended fun inside out => again ⟨inside, out⟩)
  | cons choice rest ih =>
    obtain ⟨next, chosen, onward⟩ := Option.bind_eq_some_iff.1 h
    have goes := List.mem_of_getElem? chosen
    by_cases again : p.index ∈ p.trail
    · have inside : ∃ step, p.steps[p.index]? = some step := by
        unfold nexts at goes
        split at goes
        · cases goes
        · next step found => exact ⟨step, found⟩
      obtain ⟨step, found⟩ := inside
      refine .inr ⟨fun once => ?_, mem_endings_of_again found again⟩
      exact (List.nodup_cons.1 (once.sublist (course_along h).sublist)).1 again
    · have sub := endings_subset goes again
      rcases ih onward with ⟨t, w, mem, rest⟩ | ⟨twice, w, mem, known⟩
      · exact .inl ⟨t, w, sub mem, rest⟩
      · exact .inr ⟨twice, w, sub mem, known⟩

end Point

/-! ## Resolutions -/

def Instr.isCall : Instr → Bool
  | .call _ _ _ => true
  | _ => false

section Resolution

variable {invoke : Invoke} {ctx : Context} {code : Code} {scope : Scope}
  {locals : List (String × Value)} {m : Memory} {r : Resolution} {m' : Memory}

/-- Within its budget, a resolution has the endings that are found from the start. -/
theorem endings_start (symmetric : ctx.options.forkMode = .symmetric)
    (within : WithinBudget invoke ctx code scope locals m)
    (resolved : (Analysis.resolve invoke ctx code scope locals).run m = (r, m')) :
    r.terminals.map r.arena.ending? =
      (Point.start invoke ctx code scope locals m).endings.map some := by
  obtain ⟨s, ends, s', opened, walks, run⟩ := resolve_walks invoke ctx code scope locals m
  obtain ⟨_, _, _, opened', granted⟩ := within
  obtain ⟨-, rfl⟩ := opened.unique opened'
  obtain ⟨rfl, rfl⟩ := walks.unique granted
  obtain ⟨_, s₁, planted, bound⟩ := gives_bind_iff.1 opened
  obtain rfl := gives_modify_iff.1 planted
  obtain ⟨_, a, env, m₁, hx, hy, mirrors⟩ := mimics_bindAll locals (mirrors_root scope) (m := m)
  obtain ⟨-, rfl⟩ := bound.unique hx
  obtain ⟨endings, kept, given, agree, -⟩ :=
    enumerates_walks granted scope ∅ env [] symmetric mirrors.resize
  cases run.symm.trans resolved
  have started : Point.start invoke ctx code scope locals m =
      ⟨invoke, code.steps.toArray, scope, ctx, [], env, 0, [], m₁⟩ := by
    unfold Point.start
    rw [show _ = (((), env), m₁) from hy]
  rw [started, Point.endings_of_gives given]
  exact agree

theorem exists_end {t : Termination} {w : Value} {found : List Ending}
    (agree : r.terminals.map r.arena.ending? = found.map some) (h : (t, w) ∈ found) :
    ∃ b ∈ r.ends, b.termination = some t ∧ b.returned = some w := by
  have mem : some (t, w) ∈ r.terminals.map r.arena.ending? := agree ▸ List.mem_map_of_mem h
  obtain ⟨id, ended, ending⟩ := List.mem_map.1 mem
  obtain ⟨b, at_, ending⟩ := Option.bind_eq_some_iff.1 ending
  obtain ⟨t', known, ending⟩ := Option.bind_eq_some_iff.1 ending
  obtain ⟨w', returned, same⟩ := Option.map_eq_some_iff.1 ending
  cases same
  exact ⟨b, List.mem_filterMap.2 ⟨id, ended, at_⟩, known, returned⟩

theorem mem_returnValues {b : Branch} {w : Value} (hb : b ∈ r.ends)
    (whole : Resolution.isCutoff b = false) (returned : b.returned = some w) :
    w ∈ r.returnValues := by
  have mine : w ∈ (r.ends.filter fun b => !Resolution.isCutoff b).filterMap Branch.returned :=
    List.mem_filterMap.2 ⟨b, List.mem_filter.2 ⟨hb, by rw [whole]; rfl⟩, returned⟩
  unfold Resolution.returnValues Resolution.returnsOf
  split
  · next none_left => rw [none_left] at mine; cases mine
  · exact mine

/-- A path that ends is of the type of what the resolution returns, unless it has executed an
instruction twice, and was cut off there where another path was not. -/
theorem resolve_covers (simple : ctx.symbols.Simple)
    (calls : Invoke.Sound ctx.symbols Value.Canonical invoke)
    (canonical : ∀ p ∈ locals, p.2.Canonical) (sound : m.Sound ctx.symbols Value.Canonical)
    (symmetric : ctx.options.forkMode = .symmetric)
    (within : WithinBudget invoke ctx code scope locals m) {choices : List Nat} {q : Point}
    {v : Value} (h : (Point.start invoke ctx code scope locals m).along choices = some q)
    (ended : q.result? = some v) :
    let r := ((Analysis.resolve invoke ctx code scope locals).run m).1
    v.type.isAssignableTo r.returnType = true ∨
      ¬ q.course.Nodup ∧ (∃ b ∈ r.ends, Resolution.isCutoff b = true) ∧
        ∃ b ∈ r.ends, Resolution.isCutoff b = false := by
  intro r
  have agree := endings_start symmetric within rfl
  have types : ∀ w ∈ r.returnValues.map Value.type, w.Canonical := by
    intro w hw
    obtain ⟨u, hu, rfl⟩ := List.mem_map.1 hw
    have arena := (Analysis.resolve_yields (Value.closed_canonical simple).toClosed calls rfl code
      scope canonical sound).1
    exact (Analysis.only_returnValues arena u hu).type
  rcases Point.covers_along h ended with ⟨t, w, found, whole, same⟩ | ⟨twice, w, found, unknown⟩
  · obtain ⟨b, hb, known, returned⟩ := exists_end agree found
    have notCut : Resolution.isCutoff b = false := by
      rw [Resolution.isCutoff, known]
      exact beq_false_of_ne fun cut => whole (Option.some.inj cut)
    refine .inl (same ▸ Ty.isAssignableTo_join types ?_)
    exact List.mem_map_of_mem (mem_returnValues hb notCut returned)
  · obtain ⟨b, hb, known, returned⟩ := exists_end agree found
    have cut : Resolution.isCutoff b = true := by rw [Resolution.isCutoff, known]; rfl
    by_cases all : ∀ b ∈ r.ends, Resolution.isCutoff b = true
    · have listed : w ∈ r.returnValues := by
        rw [Resolution.returnValues_of_cutoffs all]
        exact List.mem_filterMap.2 ⟨b, hb, returned⟩
      have anything : r.returnType = .any :=
        Ty.join_of_any_mem (unknown ▸ List.mem_map_of_mem listed)
      exact .inl (anything ▸ Ty.isAssignableTo_any _)
    · obtain ⟨b', hb', notCut⟩ := not_forall₂.1 all
      exact .inr ⟨twice, ⟨b, hb, cut⟩, b', hb', Bool.eq_false_iff.2 notCut⟩

/-- Code that calls nothing keeps to its budget where the arena has room for one more branch. -/
theorem withinBudget_of_callless (callless : code.steps.any (·.instr.isCall) = false)
    (room : ((Analysis.resolve invoke ctx code scope locals).run m).1.arena.size <
      ctx.options.maxBranches) : WithinBudget invoke ctx code scope locals m := by
  obtain ⟨s, ends, s', opened, walks, run⟩ := resolve_walks invoke ctx code scope locals m
  rw [run] at room
  have stands : (Task.path ctx 0 0).Stands s.1 :=
    show 0 < s.1.size from (openRoot_bound opened).apart.size ▸ Nat.zero_lt_one
  refine ⟨s, ends, s', opened, walks.of_size ?_ stands rfl (Nat.le_refl _)⟩
  rintro ctx' id index s₁ same small ⟨instr, span⟩ found -
  have size : (s₁.visit id index).1.size = s₁.1.size := s₁.1.size_modify id _
  cases instr with
  | gotoIf target condition expected =>
    show _ < ctx'.options.maxBranches
    rw [size, show ctx'.options = ctx.options from same]
    exact Nat.lt_of_le_of_lt small room
  | call result callee arguments =>
    have listed : (⟨.call result callee arguments, span⟩ : Step) ∈ code.steps :=
      List.mem_toArray.1 (Array.mem_of_getElem? found)
    exact absurd rfl (List.any_eq_false.1 callless _ listed)
  | _ => trivial

end Resolution

/-! ## Methods -/

/-- The path that a method's body starts with, in a query that is asked with the memory `m`. -/
def Point.ofMethod (ctx : Context) (id : Nat) (code : Code) (m : Memory) : Point :=
  let scope : Scope := ⟨some id, (ctx.symbols.method id).owner⟩
  let call := ((Analysis.body ctx.symbols id).run m).2.push (Analysis.openCall ctx.symbols id)
  .start (calls ctx call) ctx code scope (ctx.symbols.scopeVariables scope) call

/-- The query for a method keeps to its budget. -/
def MethodWithinBudget (ctx : Context) (id : Nat) (code : Code) (m : Memory) : Prop :=
  let scope : Scope := ⟨some id, (ctx.symbols.method id).owner⟩
  let call := ((Analysis.body ctx.symbols id).run m).2.push (Analysis.openCall ctx.symbols id)
  WithinBudget (calls ctx call) ctx code scope (ctx.symbols.scopeVariables scope) call

theorem resolveMethod_covers {ctx : Context} (simple : ctx.symbols.Simple) {m : Memory}
    (sound : m.Sound ctx.symbols Value.Canonical) (symmetric : ctx.options.forkMode = .symmetric)
    {id : Nat} {code : Code} (lowers : (ctx.symbols.method id).decl.toCode = .ok code)
    (within : MethodWithinBudget ctx id code m) {choices : List Nat} {q : Point} {v : Value}
    (path : (Point.ofMethod ctx id code m).along choices = some q) (ended : q.result? = some v) :
    let r := ((Analysis.resolveMethod ctx id).run m).1
    v.type.isAssignableTo r.returnType = true ∨
      ¬ q.course.Nodup ∧ (∃ b ∈ r.ends, Resolution.isCutoff b = true) ∧
        ∃ b ∈ r.ends, Resolution.isCutoff b = false := by
  have known := Analysis.body_of_faithful sound.faithful id
  have kept := (Analysis.body_yields id sound).2
  unfold Point.ofMethod at path
  unfold MethodWithinBudget at within
  rcases out : (Analysis.body ctx.symbols id).run m with ⟨code?, m'⟩
  rw [out] at known kept path within
  rw [lowers] at known
  obtain rfl : code? = some code := known
  rw [Analysis.resolveMethod_of_code out]
  have closed := Value.closed_canonical simple
  exact resolve_covers simple (Analysis.calls_yields closed.toClosed ctx _)
    (Analysis.only_scopeVariables closed _) (kept.push _) symmetric within path ended

/-- Whichever sides of jumps and results of calls a path through a method takes, however often it
goes through loops: what it returns is of the type that the query for the method has for what is
returned, unless the path has executed an instruction twice, and of the paths that the query has
followed some were cut off and some not. -/
theorem paths_covered {options : AnalysisOptions} {text : String} {c : Compilation}
    (built : Compilation.ofText options text = .ok c) (symmetric : options.forkMode = .symmetric)
    {m : Memory} (asked : Asked (.outer c.symbols options) m) {id : Nat} {code : Code}
    (lowers : (c.symbols.method id).decl.toCode = .ok code)
    (within : MethodWithinBudget (.outer c.symbols options) id code m)
    {choices : List Nat} {q : Point} {v : Value}
    (path : (Point.ofMethod (.outer c.symbols options) id code m).along choices = some q)
    (ended : q.result? = some v) :
    let r := ((Analysis.resolveMethod (.outer c.symbols options) id).run m).1
    v.type.isAssignableTo r.returnType = true ∨
      ¬ q.course.Nodup ∧ (∃ b ∈ r.ends, Resolution.isCutoff b = true) ∧
        ∃ b ∈ r.ends, Resolution.isCutoff b = false := by
  have simple : c.symbols.Simple := Compilation.simple built
  have sound := asked.sound (Value.closed_canonical simple)
  exact resolveMethod_covers simple sound symmetric lowers within path ended

/-! ### A loop that gives a variable another type -/

/-- The variable is a number, and a string once the body of the loop has been executed. -/
def changingText : String :=
  "fn f(c) \x7b var x = 1\n while c \x7b x = \"s\" \x7d\n return x \x7d\n"

def changing : Compilation := ((Compilation.ofText .standard changingText).toOption).getD default

def changingCode : Code := ((changing.symbols.method 0).decl.toCode).toOption.getD default

/-- A path through the function. -/
def changingPath (choices : List Nat) : Option Point :=
  (Point.ofMethod (.outer changing.symbols .standard) 0 changingCode .empty).along choices

theorem within_changing : Compilation.ofText .standard changingText = .ok changing ∧
    (changing.symbols.method 0).decl.toCode = .ok changingCode ∧
      MethodWithinBudget (.outer changing.symbols .standard) 0 changingCode .empty := by
  have row : TokenRow.ofText changingText = _ := TokenRow.ofText_of_eq_ofList (by rw [changingText])
  refine ⟨eq_ok_of_isSome ?_, eq_ok_of_isSome ?_, withinBudget_of_callless ?_ ?_⟩
  · rw [Compilation.ofText, Module.ofText, row]
    decide +kernel
  · rw [changing, Compilation.ofText, Module.ofText, row]
    decide +kernel
  · rw [changingCode, changing, Compilation.ofText, Module.ofText, row]
    decide +kernel
  · rw [changingCode, changing, Compilation.ofText, Module.ofText, row]
    decide +kernel

/-- What two paths through the function return, and what it is said to return. -/
theorem results_changing :
    (changingPath [0, 0, 0, 1, 0]).map Point.course = some [8, 7, 3, 2, 1, 0] ∧
      ((changingPath [0, 0, 0, 1, 0]).bind Point.result?).map Value.type = some .number ∧
      ((changingPath [0, 0, 0, 0, 0, 0, 0, 0, 1, 0]).bind Point.result?).map Value.type =
        some .string ∧
      ((Analysis.resolveMethod (.outer changing.symbols .standard) 0).run .empty).1.returnType =
        .number := by
  have row : TokenRow.ofText changingText = _ := TokenRow.ofText_of_eq_ofList (by rw [changingText])
  rw [changingPath, changingPath, changingCode, changing, Compilation.ofText, Module.ofText, row]
  decide +kernel

/-- The path that does not enter the loop returns a number, and that is covered. -/
theorem paths_covered_changing :
    let r := ((Analysis.resolveMethod (.outer changing.symbols .standard) 0).run .empty).1
    ∃ q v, changingPath [0, 0, 0, 1, 0] = some q ∧ q.result? = some v ∧ v.type = .number ∧
      v.type.isAssignableTo r.returnType = true := by
  intro r
  obtain ⟨course, result, -⟩ := results_changing
  obtain ⟨v, ended, type⟩ := Option.map_eq_some_iff.1 result
  obtain ⟨q, path, ended⟩ := Option.bind_eq_some_iff.1 ended
  rw [path] at course
  obtain ⟨built, lowers, within⟩ := within_changing
  have covered := paths_covered built rfl .start lowers within path ended
  refine ⟨q, v, path, ended, type, covered.resolve_right fun twice => twice.1 ?_⟩
  rw [show q.course = _ from Option.some.inj course]
  decide

/-- The path that goes through the loop once returns a string, but only a number is said to be
returned. -/
theorem paths_uncovered_changing :
    let r := ((Analysis.resolveMethod (.outer changing.symbols .standard) 0).run .empty).1
    Compilation.ofText .standard changingText = .ok changing ∧
      (changing.symbols.method 0).decl.toCode = .ok changingCode ∧
      MethodWithinBudget (.outer changing.symbols .standard) 0 changingCode .empty ∧
      ∃ q v, changingPath [0, 0, 0, 0, 0, 0, 0, 0, 1, 0] = some q ∧ q.result? = some v ∧
        v.type = .string ∧ r.returnType = .number ∧ v.type.isAssignableTo r.returnType = false := by
  intro r
  obtain ⟨-, -, result, numbers⟩ := results_changing
  obtain ⟨v, ended, type⟩ := Option.map_eq_some_iff.1 result
  obtain ⟨q, path, ended⟩ := Option.bind_eq_some_iff.1 ended
  obtain ⟨built, lowers, within⟩ := within_changing
  refine ⟨built, lowers, within, q, v, path, ended, type, numbers, ?_⟩
  rw [type, numbers]
  rfl

end PathTyping
