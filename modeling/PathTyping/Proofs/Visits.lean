import PathTyping.Proofs.Sightings

/-!
# What has been executed on the way

A branch keeps a count of each instruction that was reached on the way to it, and a new branch
starts with the counts of the one that it comes from.  Here the way itself is kept: `Course` tells
which instructions have been executed, one after the other, when a walk comes to a task.  The counts
are a record of that, so nothing is executed twice.

1. While a path goes on, its branch has counted one for each instruction that the path has executed
   and nothing else (`Course.records`).
2. Behind the code a step counts nothing; else it counts an instruction once more and refuses it, or
   counts a new one and executes it (`step_recounts`).
3. In the whole arena, the counts of a branch go on from those of the branch that it comes from, and
   are all one but for the instruction that was refused (`Walks.counted`).
4. So it is in each resolution, where a path executes each instruction at most once
   (`visits_counted_once`).
-/

namespace PathTyping

open Walk

/-! ## Counts -/

/-- Some of the first `n` instructions, each at most once. -/
structure Distinct (n : Nat) (trace : List Nat) : Prop where
  nodup : trace.Nodup
  inside : ∀ i ∈ trace, i < n

theorem Distinct.length_le {n : Nat} {trace : List Nat} (h : Distinct n trace) :
    trace.length ≤ n := by
  have sub : trace ⊆ List.range n := fun i hi => List.mem_range.2 (h.inside i hi)
  simpa using (List.subperm_of_subset h.nodup sub).length_le

/-- What a path has executed when it has taken its step at `index`: no instruction that it has
executed before, and none behind the last. -/
def executed (n : Nat) (trace : List Nat) (index : Nat) : List Nat :=
  if index < n ∧ index ∉ trace then index :: trace else trace

theorem Distinct.executed {n : Nat} {trace : List Nat} (h : Distinct n trace) (index : Nat) :
    Distinct n (executed n trace index) := by
  unfold PathTyping.executed
  split
  · next new => exact ⟨List.nodup_cons.2 ⟨new.2, h.nodup⟩, List.forall_mem_cons.2 ⟨new.1, h.inside⟩⟩
  · exact h

namespace Branch

variable {n index i : Nat} {trace : List Nat} {b b' b'' : Branch}

/-- The branch is open, and has counted one for each instruction of the trace. -/
structure Records (trace : List Nat) (b : Branch) : Prop where
  running : b.termination = none
  visited : b.visited = trace.map (·, 1)

theorem find?_ones (trace : List Nat) (i : Nat) :
    Assoc.find? (trace.map (·, 1)) i = if i ∈ trace then some 1 else none := by
  induction trace with
  | nil => rfl
  | cons j rest ih =>
    by_cases same : j = i
    · simp [Assoc.find?, same]
    · simp [Assoc.find?, same, Ne.symm same, ih]

theorem visits_of_ones (visited : b.visited = trace.map (·, 1)) (i : Nat) :
    b.visits i = if i ∈ trace then 1 else 0 := by
  rw [visits, visited, find?_ones]
  split <;> rfl

theorem Records.visits_eq_zero_iff (h : b.Records trace) : b.visits i = 0 ↔ i ∉ trace := by
  rw [visits_of_ones h.visited]
  split <;> simp [*]

/-- An instruction that is new is counted once. -/
theorem visited_visit_of_new (visited : b.visited = trace.map (·, 1)) (new : index ∉ trace) :
    (b.visit index).visited = (index :: trace).map (·, 1) := by
  have absent : Assoc.find? b.visited index = none := by rw [visited, find?_ones, if_neg new]
  rw [visit, visits, absent, visited, Assoc.insert_eq,
    Assoc.erase_of_find?_eq_none (by rw [find?_ones, if_neg new])]
  rfl

/-- How a path ends at `index`, when it has executed the instructions of the trace: it executes one
more and returns, it leaves the code, or it is refused an instruction of the trace, which it has
counted twice then. -/
inductive Ended (n : Nat) (trace : List Nat) (index : Nat) (b : Branch) : Prop
  | returned (ends : b.termination = some .return_) (inside : index < n) (new : index ∉ trace)
      (visited : b.visited = (index :: trace).map (·, 1))
  | left (ends : b.termination = some .fallThrough) (outside : n ≤ index)
      (visited : b.visited = trace.map (·, 1))
  | refused (ends : b.termination = some .loopCutoff) (again : index ∈ trace)
      (visited : b.visited = (index, 2) :: (trace.filter (· ≠ index)).map (·, 1))

theorem erase_ones (trace : List Nat) (index : Nat) :
    Assoc.erase (trace.map (·, 1)) index = (trace.filter (· ≠ index)).map (·, 1) := by
  induction trace with
  | nil => rfl
  | cons j rest ih => by_cases same : j = index <;> simp_all [Assoc.erase]

/-- An instruction that is refused is counted twice. -/
theorem visited_visit_of_again (visited : b.visited = trace.map (·, 1)) (again : index ∈ trace) :
    (b.visit index).visited = (index, 2) :: (trace.filter (· ≠ index)).map (·, 1) := by
  have once : b.visits index = 1 := by rw [visits_of_ones visited, if_pos again]
  rw [visit, once, visited, Assoc.insert_eq, erase_ones]
  rfl

/-- What a branch may have counted: each of the first `n` instructions at most once, but one of them
twice if the branch was cut off. -/
structure Counted (n : Nat) (b : Branch) : Prop where
  keyed : (Assoc.keys b.visited).Nodup
  inside : ∀ i c, Assoc.find? b.visited i = some c → i < n
  once : b.termination ≠ some .loopCutoff → ∀ i c, Assoc.find? b.visited i = some c → c = 1
  twice : b.termination = some .loopCutoff → ∃ i, Assoc.find? b.visited i = some 2 ∧
    ∀ j c, j ≠ i → Assoc.find? b.visited j = some c → c = 1

/-- Whatever one branch has counted, the other has counted at least as often. -/
def Continues (b b' : Branch) : Prop :=
  ∀ i c, Assoc.find? b.visited i = some c → ∃ c' ≥ c, Assoc.find? b'.visited i = some c'

theorem continues_of_eq (same : b'.visited = b.visited) : b.Continues b' := fun _ c found =>
  ⟨c, Nat.le_refl c, same ▸ found⟩

theorem Continues.trans (h : b.Continues b') (h' : b'.Continues b'') : b.Continues b'' :=
  fun i c found => by
    obtain ⟨c', more, found'⟩ := h i c found
    obtain ⟨c'', most, found''⟩ := h' i c' found'
    exact ⟨c'', Nat.le_trans more most, found''⟩

theorem continues_visit (h : b.Records trace) (index : Nat) : b.Continues (b.visit index) := by
  intro i c found
  by_cases same : index = i
  · subst same
    refine ⟨min (b.visits index + 1) 255, ?_, Assoc.find?_insert_self _ _ _⟩
    rw [h.visited, find?_ones] at found
    obtain ⟨-, ⟨⟩⟩ := Option.ite_none_right_eq_some.1 found
    exact Nat.le_min.2 ⟨Nat.le_add_left 1 _, by decide⟩
  · exact ⟨c, Nat.le_refl c, (Assoc.find?_insert_of_ne _ _ same).trans found⟩

theorem counted_of_ones (distinct : Distinct n trace) (visited : b.visited = trace.map (·, 1))
    (ended : b.termination ≠ some .loopCutoff) : b.Counted n where
  keyed := by
    rw [visited, Assoc.keys, List.map_map]
    exact (List.map_id trace).symm ▸ distinct.nodup
  inside i c found := by
    rw [visited, find?_ones] at found
    exact distinct.inside i (Option.ite_none_right_eq_some.1 found).1
  once _ i c found := by
    rw [visited, find?_ones] at found
    exact (Option.some.inj (Option.ite_none_right_eq_some.1 found).2).symm
  twice cut := absurd cut ended

theorem Ended.counted (h : b.Ended n trace index) (distinct : Distinct n trace) : b.Counted n := by
  cases h with
  | returned ends inside new visited =>
    refine counted_of_ones ⟨List.nodup_cons.2 ⟨new, distinct.nodup⟩,
      List.forall_mem_cons.2 ⟨inside, distinct.inside⟩⟩ visited (by rw [ends]; nofun)
  | left ends _ visited => exact counted_of_ones distinct visited (by rw [ends]; nofun)
  | refused ends again visited =>
    have others {i c : Nat} (other : i ≠ index) (found : Assoc.find? b.visited i = some c) :
        i ∈ trace ∧ c = 1 := by
      rw [visited, Assoc.find?, if_neg (Ne.symm other), find?_ones] at found
      obtain ⟨there, one⟩ := Option.ite_none_right_eq_some.1 found
      exact ⟨List.mem_of_mem_filter there, (Option.some.inj one).symm⟩
    refine ⟨?_, fun i c found => ?_, fun alive => absurd ends alive, fun _ => ⟨index, ?_, ?_⟩⟩
    · rw [visited, Assoc.keys_cons, Assoc.keys, List.map_map]
      refine List.nodup_cons.2 ⟨by simp, ?_⟩
      exact (List.map_id _).symm ▸ distinct.nodup.filter _
    · by_cases same : i = index
      · exact same ▸ distinct.inside index again
      · exact distinct.inside i (others same found).1
    · rw [visited, Assoc.find?, if_pos rfl]
    · exact fun j c other found => (others other found).2

end Branch

/-! ## The way to a task -/

section Course

variable {invoke : Invoke} {steps : Array Step} {P : Context → Nat → Nat → State → Prop}
  {ctx : Context} {id index k : Nat} {s s' s₁ s₂ : State} {start task task' : Task} {next : Next}
  {ends others : List Nat} {trace : List Nat}

/-- On its way from a start, a walk comes to a task, and the path behind it has executed the
instructions of the trace, the latest first. -/
inductive Course (invoke : Invoke) (steps : Array Step) (start : Task) (s : State) :
    List Nat → Task → State → Prop
  | here : Course invoke steps start s [] start s
  | onward {trace : List Nat} {ctx : Context} {id index : Nat} {next : Next} {task : Task}
      {s₁ s₂ : State} (course : Course invoke steps start s trace (.path ctx id index) s₁)
      (done : Gives (step invoke ctx steps id index) s₁ next s₂)
      (goes : next.task? ctx id = some task) : Course invoke steps start s (index :: trace) task s₂
  | first {trace : List Nat} {ctx : Context} {id index : Nat} {starts : List (Nat × Nat)}
      {s₁ : State}
      (course : Course invoke steps start s trace (.all ctx ((id, index) :: starts)) s₁) :
      Course invoke steps start s trace (.path ctx id index) s₁
  | later {trace : List Nat} {ctx : Context} {id index : Nat} {starts : List (Nat × Nat)}
      {s₁ s₂ : State} {ends : List Nat}
      (course : Course invoke steps start s trace (.all ctx ((id, index) :: starts)) s₁)
      (before : Walks invoke steps (fun _ _ _ _ => True) (.path ctx id index) s₁ ends s₂) :
      Course invoke steps start s trace (.all ctx starts) s₂
  | eachFirst {trace : List Nat} {ctx : Context} {id index : Nat} {slot : Slot} {v : Value}
      {values : List Value} {s₁ s₂ : State}
      (course : Course invoke steps start s trace (.each ctx id slot (v :: values) index) s₁)
      (bound : Gives (bindSlot s₁.1.size slot v) (s₁.1.child id, s₁.2) () s₂) :
      Course invoke steps start s trace (.path (ctx.await values) s₁.1.size index) s₂
  | eachLater {trace : List Nat} {ctx : Context} {id index : Nat} {slot : Slot} {v : Value}
      {values : List Value} {s₁ s₂ s₃ : State} {ends : List Nat}
      (course : Course invoke steps start s trace (.each ctx id slot (v :: values) index) s₁)
      (bound : Gives (bindSlot s₁.1.size slot v) (s₁.1.child id, s₁.2) () s₂)
      (before : Walks invoke steps (fun _ _ _ _ => True)
        (.path (ctx.await values) s₁.1.size index) s₂ ends s₃) :
      Course invoke steps start s trace (.each ctx id slot values index) s₃

theorem Course.leads (h : Course invoke steps start s trace task s₁) :
    Leads invoke steps start s task s₁ := by
  induction h with
  | here => exact .here
  | onward _ done goes ih => exact ih.trans (.onward done goes .here)
  | first _ ih => exact ih.trans (.first .here)
  | later _ before ih => exact ih.trans (.later before .here)
  | eachFirst _ bound ih => exact ih.trans (.eachFirst bound .here)
  | eachLater _ bound before ih => exact ih.trans (.eachLater bound before .here)

/-- Each path that ends has come there, and stops. -/
theorem Course.exists_stop (h : Course invoke steps start s trace task s₁)
    (walks : Walks invoke steps (fun _ _ _ _ => True) task s₁ ends s') (ended : k ∈ ends) :
    ∃ trace' ctx' i s₂ t v s₃, Course invoke steps start s trace' (.path ctx' k i) s₂ ∧
      Gives (step invoke ctx' steps k i) s₂ (.stop t v) s₃ := by
  induction walks generalizing trace with
  | onward _ done goes _ ih => exact ih (h.onward done goes) ended
  | stop _ done _ =>
    obtain rfl := List.mem_singleton.1 ended
    exact ⟨_, _, _, _, _, _, _, h, done⟩
  | allNil => cases ended
  | allCons before _ ihFirst ihRest =>
    rcases List.mem_append.1 ended with ended | ended
    · exact ihFirst h.first ended
    · exact ihRest (h.later before) ended
  | eachNil => cases ended
  | eachCons bound before _ ihFirst ihRest =>
    rcases List.mem_append.1 ended with ended | ended
    · exact ihFirst (h.eachFirst bound) ended
    · exact ihRest (h.eachLater bound before) ended

/-- A branch on which a path has ended is left as it is. -/
theorem Leads.ended (leads : Leads invoke steps task s task' s₁)
    (walks : Walks invoke steps P task s ends s') (unsplit : task.Unsplit 1 s.1)
    (rest : Walks invoke steps P task' s₁ others s₂) (ended : k ∈ others) :
    k ∈ ends ∧ s'.1.branch? k = s₂.1.branch? k := by
  induction leads generalizing ends s' with
  | here =>
    obtain ⟨rfl, rfl⟩ := walks.unique rest
    exact ⟨ended, rfl⟩
  | onward done goes _ ih =>
    cases walks with
    | onward _ done' goes' walks =>
      obtain ⟨rfl, rfl⟩ := done.unique done'
      cases goes.symm.trans goes'
      exact ih walks (step_unsplit unsplit done goes) rest
    | stop _ done' _ => cases (done.unique done').1; cases goes
  | @first ctx id index starts task' s s₁ _ ih =>
    cases walks with
    | allCons walks later =>
      obtain ⟨there, same⟩ := ih walks unsplit.first rest
      obtain ⟨framed, belong⟩ := walks.framed unsplit.first.stands
      obtain ⟨inside, origin⟩ := belong k there
      refine ⟨List.mem_append_left _ there, ?_⟩
      rw [(later.framed (unsplit.rest walks).stands).1.others k inside, same]
      -- The other branches were there before, and the path did not begin on them.
      intro waits
      rcases origin with mine | new
      · exact (List.nodup_cons.1 unsplit.nodup).1 (List.mem_singleton.1 mine ▸ waits)
      · obtain ⟨other, hs, rfl⟩ := List.mem_map.1 waits
        exact Nat.not_lt.2 new (unsplit.stands other (List.mem_cons_of_mem _ hs))
  | later before _ ih =>
    cases walks with
    | allCons walks later =>
      obtain ⟨-, rfl⟩ := before.unique walks
      exact (ih later (unsplit.rest walks) rest).imp_left (List.mem_append_right _)
  | eachFirst bound _ ih =>
    cases walks with
    | eachCons bound' walks later =>
      obtain ⟨-, rfl⟩ := bound.unique bound'
      obtain ⟨there, same⟩ := ih walks (unsplit.eachFirst bound) rest
      obtain ⟨inside, -⟩ := (walks.framed (unsplit.eachFirst bound).stands).2 k there
      refine ⟨List.mem_append_left _ there, ?_⟩
      rw [(later.framed (unsplit.eachLater bound walks).stands).1.others k inside
        List.not_mem_nil, same]
  | eachLater bound before _ ih =>
    cases walks with
    | eachCons bound' walks later =>
      obtain ⟨-, rfl⟩ := bound.unique bound'
      obtain ⟨-, rfl⟩ := before.unique walks
      exact (ih later (unsplit.eachLater bound walks) rest).imp_left (List.mem_append_right _)

end Course

/-! ## What a step counts -/

/-- The branch is open, and has counted one for each instruction of the trace. -/
def Arena.Records (a : Arena) (trace : List Nat) (id : Nat) : Prop :=
  ∃ b, a.branch? id = some b ∧ b.Records trace

namespace Arena.Records

variable {a a' : Arena} {id k : Nat} {trace : List Nat}

theorem lt (h : a.Records trace id) : id < a.size := h.elim fun _ hb => lt_size_of_branch? hb.1

theorem of_eq (h : a.Records trace id) (same : a'.branch? id = a.branch? id) :
    a'.Records trace id := h.imp fun _ hb => ⟨same.trans hb.1, hb.2⟩

theorem bind (h : a.Records trace id) {f : Branch → Branch} (binds : Walk.Binds f) (k : Nat) :
    (a.modify k f).Records trace id := by
  obtain ⟨b, found, records⟩ := h
  by_cases same : k = id
  · refine ⟨f b, by rw [branch?_modify, if_pos same, found, Option.map_some], ?_⟩
    exact ⟨(binds.termination b).trans records.running, (binds.visited b).trans records.visited⟩
  · exact ⟨b, (branch?_modify_of_ne a f same).trans found, records⟩

/-- A new branch has been where the one has been that it comes from. -/
theorem child (h : a.Records trace id) : (a.child id).Records trace a.size := by
  obtain ⟨b, found, records⟩ := h
  refine ⟨_, branch?_child_size a id, rfl, ?_⟩
  rw [found]
  exact records.visited

end Arena.Records

/-- The branches on which the paths of the task begin, or from which they come, have counted one for
each instruction of the trace. -/
def Task.Records (trace : List Nat) (a : Arena) : Task → Prop
  | path _ id _ => a.Records trace id
  | all _ starts => ∀ start ∈ starts, a.Records trace start.1
  | each _ id _ _ _ => a.Records trace id

/-- Where a path may go on behind the instruction at `index`: a jump that depends on a condition is
not taken unless both sides are explored. -/
def Instr.onward (mode : ForkMode) (index : Nat) : Instr → List Nat
  | gotoIf target _ _ =>
    match mode with
    | .symmetric => [index + 1, target]
    | .fallthroughOnly => [index + 1]
  | instr => instr.successors index

/-- A path goes on where the instruction allows it to, and ends only where it returns. -/
def Next.Follows (mode : ForkMode) (index : Nat) (instr : Instr) : Next → Prop
  | next target => target ∈ instr.onward mode index
  | stop termination _ => termination = .return_ ∧ instr.isReturn = true
  | split starts => ∀ start ∈ starts, start.2 ∈ instr.onward mode index
  | spread _ _ target => target ∈ instr.onward mode index

theorem Instr.succ_mem_onward {mode : ForkMode} {index target : Nat} {condition : Slot}
    {expected : Bool} : index + 1 ∈ (gotoIf target condition expected).onward mode index := by
  cases mode <;> exact List.mem_cons_self

theorem Instr.mem_successors_of_onward {mode : ForkMode} {index target : Nat} {instr : Instr}
    (h : target ∈ instr.onward mode index) : target ∈ instr.successors index := by
  cases instr with
  | gotoIf t c e =>
    cases mode with
    | symmetric => exact h
    | fallthroughOnly => exact List.mem_cons.2 (.inl (List.mem_singleton.1 h))
  | _ => exact h

namespace Walk

variable {α : Type} {x : Walk α} {f : α → Walk Next} {Q : Next → Prop} {mode : ForkMode}
  {index : Nat}

/-- However the program says that its path goes on, `Q` holds of it. -/
def Only (Q : Next → Prop) (x : Walk Next) : Prop := ∀ ⦃s next s'⦄, Gives x s next s' → Q next

theorem only_bind (h : ∀ v, Only Q (f v)) : Only Q (x >>= f) := fun _ _ _ given => by
  obtain ⟨v, s₁, -, given⟩ := gives_bind_iff.1 given
  exact h v given

theorem only_pure {next : Next} (h : Q next) : Only Q (pure next) := fun _ _ _ given =>
  (gives_pure_iff.1 given).1 ▸ h

theorem only_fork (options : AnalysisOptions) (id target : Nat) (condition : Slot)
    (expected : Bool) :
    Only (Next.Follows options.forkMode index (.gotoIf target condition expected))
      (fork options id target (index + 1)) := by
  refine only_bind fun a => ?_
  split
  · exact only_pure Instr.succ_mem_onward
  · unfold Next.Follows Instr.onward
    cases options.forkMode with
    | symmetric =>
      refine only_bind fun fall => only_bind fun taken => only_pure fun start hs => ?_
      rcases List.mem_pair.1 hs with rfl | rfl
      · exact List.mem_cons_self
      · exact List.mem_cons_of_mem _ List.mem_cons_self
    | fallthroughOnly =>
      refine only_bind fun fall => only_pure fun start hs => ?_
      exact List.mem_singleton.1 hs ▸ List.mem_cons_self

theorem only_continueWith {instr : Instr} (h : index + 1 ∈ instr.onward mode index) (id : Nat)
    (slot : Slot) (values : List Value) :
    Only (Next.Follows mode index instr) (continueWith id slot values (index + 1)) := by
  unfold continueWith
  split
  · exact only_bind fun _ => only_pure h
  · exact only_bind fun _ => only_pure h
  · exact only_pure h

/-- What is executed determines how the path goes on. -/
theorem only_execute (invoke : Invoke) (ctx : Context) (id index : Nat) (step : Step) :
    Only (Next.Follows ctx.options.forkMode index step.instr)
      (execute invoke ctx id index step) := by
  unfold execute
  dsimp only
  have one : index + 1 ∈ [index + 1] := List.mem_cons_self
  cases step.instr with
  | const _ _ => exact only_bind fun _ => only_pure one
  | unary _ _ _ => exact only_bind fun _ => only_bind fun _ => only_pure one
  | binary _ _ _ _ => exact only_bind fun _ => only_bind fun _ => only_bind fun _ => only_pure one
  | goto _ => exact only_pure List.mem_cons_self
  | gotoIf _ _ _ => exact only_bind fun _ => only_fork _ _ _ _ _
  | call _ _ _ => exact only_bind fun _ => only_bind fun _ => only_continueWith one _ _ _
  | load _ _ => exact only_bind fun _ => only_bind fun _ => only_pure one
  | member _ _ _ => exact only_bind fun _ => only_bind fun _ => only_pure one
  | index _ _ _ =>
    exact only_bind fun _ => only_bind fun _ => only_bind fun _ => only_bind fun _ => only_pure one
  | store _ _ => exact only_bind fun _ => only_bind fun _ => only_pure one
  | ret value => cases value <;> exact only_bind fun _ => only_pure ⟨rfl, rfl⟩

end Walk

section Step

variable {invoke : Invoke} {steps : Array Step} {ctx : Context} {id index : Nat} {s s' : State}
  {task : Task} {next : Next} {trace : List Nat}

/-- Behind the code a step counts nothing; else it counts an instruction of the trace once more and
refuses it, or counts a new one and executes it. -/
inductive Recounts (steps : Array Step) (ctx : Context) (id index : Nat) (trace : List Nat)
    (s : State) : Next → State → Prop
  | leaves {v : Value} (outside : steps.size ≤ index) :
      Recounts steps ctx id index trace s (.stop .fallThrough v) s
  | refuses {s' : State} (inside : index < steps.size) (again : index ∈ trace)
      (arena : s'.1 = s.1.modify id (·.visit index)) :
      Recounts steps ctx id index trace s (.stop .loopCutoff .any) s'
  | executes {step : Step} {next : Next} {f : Branch → Branch} {s' : State}
      (found : steps[index]? = some step) (new : index ∉ trace) (binds : Binds f)
      (goes : Goes ctx.options id (s.1.modify id (f ∘ (·.visit index))) s'.1 next)
      (follows : next.Follows ctx.options.forkMode index step.instr) :
      Recounts steps ctx id index trace s next s'

theorem step_recounts (records : s.1.Records trace id)
    (done : Gives (step invoke ctx steps id index) s next s') :
    Recounts steps ctx id index trace s next s' := by
  obtain ⟨b, found, records⟩ := records
  rcases step_cases found done with ⟨outside, rfl, rfl⟩ |
    ⟨instruction, there, ⟨again, rfl, rfl⟩ | ⟨new, executed⟩⟩
  · exact .leaves (Array.getElem?_eq_none_iff.1 outside)
  · refine .refuses (Array.getElem?_eq_some_iff.1 there).1 ?_ rfl
    exact not_not.1 (mt records.visits_eq_zero_iff.2 again)
  · obtain ⟨s₁, ⟨f, binds, arena⟩, -, goes⟩ :=
      (admits_bound invoke id).execute ctx index _ executed
    refine .executes (f := f) there (records.visits_eq_zero_iff.1 new) binds ?_
      (only_execute invoke ctx id index instruction executed)
    rw [← Arena.modify_modify]
    exact arena ▸ goes

/-- A path that goes on has an instruction to execute, which tells where it may go. -/
theorem step_follows (stands : id < s.1.size)
    (done : Gives (step invoke ctx steps id index) s next s')
    (goes : next.task? ctx id = some task) :
    ∃ step, steps[index]? = some step ∧ next.Follows ctx.options.forkMode index step.instr := by
  obtain ⟨b, found⟩ := Arena.exists_branch stands
  rcases step_cases found done with ⟨-, -, rfl⟩ | ⟨instruction, there, ⟨-, rfl, -⟩ | ⟨-, executed⟩⟩
  · cases goes
  · cases goes
  · exact ⟨instruction, there, only_execute invoke ctx id index instruction executed⟩

/-- An instruction that is executed is in the record from there on. -/
theorem Arena.Records.executes {a : Arena} {f : Branch → Branch} (h : a.Records trace id)
    (new : index ∉ trace) (binds : Walk.Binds f) :
    (a.modify id (f ∘ (·.visit index))).Records (index :: trace) id := by
  obtain ⟨b, found, records⟩ := h
  rw [← Arena.modify_modify]
  refine Arena.Records.bind ⟨b.visit index, ?_, records.running, ?_⟩ binds id
  · rw [Arena.branch?_modify, if_pos rfl, found, Option.map_some]
  · exact Branch.visited_visit_of_new records.visited new

/-- A path that goes on has executed its instruction, and this is what it leaves behind. -/
theorem step_records (records : s.1.Records trace id)
    (done : Gives (step invoke ctx steps id index) s next s')
    (goes : next.task? ctx id = some task) :
    index < steps.size ∧ index ∉ trace ∧ task.Records (index :: trace) s'.1 := by
  cases step_recounts records done with
  | leaves _ => cases goes
  | refuses _ _ _ => cases goes
  | @executes _ _ f _ there new binds prepared _ =>
    refine ⟨(Array.getElem?_eq_some_iff.1 there).1, new, ?_⟩
    have here := records.executes new binds
    generalize s.1.modify id (f ∘ (·.visit index)) = a at prepared here
    generalize s'.1 = a' at prepared ⊢
    cases next with
    | next target =>
      cases goes
      obtain rfl : a' = a := prepared
      exact here
    | stop t v => cases goes
    | spread slot values target =>
      cases goes
      obtain ⟨rfl, -⟩ : a' = a ∧ _ := prepared
      exact here
    | split starts =>
      cases goes
      obtain ⟨-, prepared⟩ := prepared
      cases mode : ctx.options.forkMode with
      | symmetric =>
        rw [mode] at prepared
        obtain ⟨rfl, i, j, rfl⟩ := prepared
        have kept : (a.child id).Records (index :: trace) id :=
          here.of_eq (a.branch?_child_of_lt id here.lt)
        have taken := kept.child
        rw [Arena.size_child] at taken
        refine List.forall_mem_cons.2 ⟨?_, List.forall_mem_singleton.2 taken⟩
        exact here.child.of_eq (Arena.branch?_child_of_lt _ id (by simp))
      | fallthroughOnly =>
        rw [mode] at prepared
        obtain ⟨rfl, i, rfl⟩ := prepared
        exact List.forall_mem_singleton.2 here.child

end Step

/-- While a path goes on, its branch has counted one for each instruction that the path has
executed; and it has executed none twice. -/
theorem Course.records {invoke : Invoke} {steps : Array Step} {start task : Task} {s s₁ : State}
    {trace : List Nat} (h : Course invoke steps start s trace task s₁)
    (unsplit : start.Unsplit 1 s.1) (records : start.Records [] s.1) :
    Distinct steps.size trace ∧ task.Records trace s₁.1 := by
  induction h with
  | here => exact ⟨⟨List.nodup_nil, nofun⟩, records⟩
  | onward _ done goes ih =>
    obtain ⟨distinct, here⟩ := ih
    obtain ⟨inside, new, there⟩ := step_records here done goes
    exact ⟨⟨List.nodup_cons.2 ⟨new, distinct.nodup⟩,
      List.forall_mem_cons.2 ⟨inside, distinct.inside⟩⟩, there⟩
  | first _ ih => exact ih.imp_right fun all => all _ List.mem_cons_self
  | later course before ih =>
    obtain ⟨distinct, all⟩ := ih
    have waits := course.leads.unsplit unsplit
    refine ⟨distinct, fun start later => ?_⟩
    have there := all start (List.mem_cons_of_mem _ later)
    refine there.of_eq ((before.framed waits.first.stands).1.others _ there.lt fun mine => ?_)
    exact (List.nodup_cons.1 waits.nodup).1
      (List.mem_singleton.1 mine ▸ List.mem_map.2 ⟨start, later, rfl⟩)
  | eachFirst _ bound ih =>
    obtain ⟨f, binds, arena⟩ := bindSlot_bound bound
    exact ih.imp_right fun parent => arena ▸ parent.child.bind binds _
  | eachLater course bound before ih =>
    refine ih.imp_right fun parent => parent.of_eq ?_
    exact branch?_of_each bound before parent.lt

/-! ## The whole arena -/

/-- Branches count as they may, and what has been counted on a branch has been counted on those that
come from it, which are younger. -/
structure Arena.Counted (n : Nat) (a : Arena) : Prop where
  older : ∀ k p, a.ComesFrom k p → p < k
  counted : ∀ k b, a.branch? k = some b → b.Counted n
  inherits : ∀ k b p b', a.branch? k = some b → b.parent = .branch p → a.branch? p = some b' →
    b'.Continues b

namespace Arena.Counted

variable {a : Arena} {id n index : Nat} {b : Branch} {f : Branch → Branch} {trace : List Nat}

theorem unforked (h : a.Counted n) (unsplit : ¬ a.SplitSince 1 id) : ¬ a.Forks id := by
  rintro ⟨j, comes⟩
  exact unsplit ⟨j, Nat.one_le_of_lt (h.older j id comes), comes⟩

/-- A branch goes on counting, unless there is one that comes from it. -/
theorem modify (h : a.Counted n) (found : a.branch? id = some b)
    (keeps : ∀ b, (f b).parent = b.parent) (counted : (f b).Counted n)
    (grows : b.Continues (f b)) (childless : ¬ a.Forks id) : (a.modify id f).Counted n := by
  have cases_ {k : Nat} {c : Branch} (there : (a.modify id f).branch? k = some c) :
      ∃ c', a.branch? k = some c' ∧ c.parent = c'.parent ∧ c'.Continues c ∧
        (c = c' ∨ k = id ∧ c = f b) := by
    obtain ⟨c', old, rfl | ⟨rfl, rfl⟩⟩ := branch?_of_modify there
    · exact ⟨c, old, rfl, Branch.continues_of_eq rfl, .inl rfl⟩
    · cases found.symm.trans old
      exact ⟨b, old, keeps b, grows, .inr ⟨rfl, rfl⟩⟩
  refine ⟨fun k p comes => h.older k p ((comesFrom_modify keeps).1 comes), fun k c there => ?_, ?_⟩
  · obtain ⟨c', old, -, -, rfl | ⟨-, rfl⟩⟩ := cases_ there
    · exact h.counted k c old
    · exact counted
  · intro k c p d there parent there'
    obtain ⟨c', old, same, continues, -⟩ := cases_ there
    rw [same] at parent
    obtain ⟨d', old', -, -, rfl | ⟨rfl, -⟩⟩ := cases_ there'
    · exact (h.inherits k c' p d old parent old').trans continues
    · exact absurd ⟨k, c', old, parent⟩ childless

theorem child (h : a.Counted n) (found : a.branch? id = some b) (running : b.termination = none) :
    (a.child id).Counted n := by
  have mine := h.counted id b found
  have fresh {k : Nat} {c : Branch} (there : (a.child id).branch? k = some c) :
      a.branch? k = some c ∨ k = a.size ∧ c = .fresh (.branch id) b.visited := by
    have new := branch?_of_child there
    rwa [found] at new
  refine ⟨fun k p comes => ?_, fun k c there => ?_, fun k c p d there parent there' => ?_⟩
  · rcases comesFrom_child.1 comes with old | ⟨rfl, rfl⟩
    · exact h.older k p old
    · exact lt_size_of_branch? found
  · rcases fresh there with old | ⟨-, rfl⟩
    · exact h.counted k c old
    · exact ⟨mine.keyed, mine.inside, fun _ => mine.once (by rw [running]; nofun), nofun⟩
  · rcases fresh there' with old' | ⟨rfl, rfl⟩
    · rcases fresh there with old | ⟨rfl, rfl⟩
      · exact h.inherits k c p d old parent old'
      · cases parent
        cases found.symm.trans old'
        exact Branch.continues_of_eq rfl
    · -- Nothing comes from a new branch.
      have older : a.size < k := by
        rcases fresh there with old | ⟨rfl, rfl⟩
        · exact h.older k a.size ⟨c, old, parent⟩
        · cases parent
          exact absurd (lt_size_of_branch? found) (Nat.lt_irrefl _)
      rcases fresh there with old | ⟨rfl, rfl⟩
      · exact absurd (lt_size_of_branch? old) (Nat.lt_asymm older)
      · exact absurd older (Nat.lt_irrefl _)

/-- A path executes an instruction that is new. -/
theorem executes (h : a.Counted n) (distinct : Distinct n trace) (records : a.Records trace id)
    (inside : index < n) (new : index ∉ trace) (childless : ¬ a.Forks id)
    (binds : Walk.Binds f) : (a.modify id (f ∘ (·.visit index))).Counted n := by
  obtain ⟨b, found, records⟩ := records
  have visited : (f (b.visit index)).visited = (index :: trace).map (·, 1) :=
    (binds.visited _).trans (Branch.visited_visit_of_new records.visited new)
  refine h.modify found (fun b => binds.parent _) ?_ ?_ childless
  · refine Branch.counted_of_ones ⟨List.nodup_cons.2 ⟨new, distinct.nodup⟩,
      List.forall_mem_cons.2 ⟨inside, distinct.inside⟩⟩ visited ?_
    show (f (b.visit index)).termination ≠ some .loopCutoff
    rw [binds.termination, show (b.visit index).termination = none from records.running]
    nofun
  · exact (Branch.continues_visit records index).trans (Branch.continues_of_eq (binds.visited _))

theorem bind (h : a.Counted n) (records : a.Records trace id) (childless : ¬ a.Forks id)
    (binds : Walk.Binds f) : (a.modify id f).Counted n := by
  obtain ⟨b, found, records⟩ := records
  have mine := h.counted id b found
  refine h.modify found binds.parent ?_ (Branch.continues_of_eq (binds.visited b)) childless
  have alive : b.termination ≠ some .loopCutoff := by rw [records.running]; nofun
  refine ⟨(binds.visited b).symm ▸ mine.keyed, (binds.visited b).symm ▸ mine.inside,
    fun _ => (binds.visited b).symm ▸ mine.once alive, fun cut => ?_⟩
  exact absurd ((binds.termination b).symm.trans cut) alive

end Arena.Counted

section Counted

variable {invoke : Invoke} {steps : Array Step} {start task : Task} {s₀ s s' : State}
  {trace ends : List Nat} {id : Nat} {t : Termination} {v : Value}

/-- Where a step stops a path, its branch tells why. -/
theorem step_ends {ctx : Context} {index : Nat} {s₁ : State} {b : Branch}
    (found : s.1.branch? id = some b) (records : b.Records trace)
    (done : Gives (step invoke ctx steps id index) s (.stop t v) s₁)
    (finished : Gives (finish id t v) s₁ () s') :
    ∃ g : Branch → Branch, s'.1 = s.1.modify id g ∧ (∀ b, (g b).parent = b.parent) ∧
      b.Continues (g b) ∧ (g b).Ended steps.size trace index := by
  obtain ⟨w, s₂, made, finished⟩ := gives_bind_iff.1 finished
  obtain ⟨rfl, -⟩ := gives_lift_iff.1 made
  have arena : s'.1 = s₁.1.modify id (·.finish t w) :=
    congrArg Prod.fst (gives_modify_iff.1 finished)
  cases step_recounts ⟨b, found, records⟩ done with
  | leaves outside =>
    exact ⟨_, arena, fun _ => rfl, Branch.continues_of_eq rfl, .left rfl outside records.visited⟩
  | refuses inside again visited =>
    rw [visited, Arena.modify_modify] at arena
    refine ⟨_, arena, fun _ => rfl, Branch.continues_visit records index, .refused rfl again ?_⟩
    exact Branch.visited_visit_of_again records.visited again
  | @executes _ _ f _ there new binds goes follows =>
    obtain rfl : t = .return_ := follows.1
    have inside := (Array.getElem?_eq_some_iff.1 there).1
    have after : s₁.1 = s.1.modify id (f ∘ (·.visit index)) := goes
    rw [after, Arena.modify_modify] at arena
    have visited : (f (b.visit index)).visited = (index :: trace).map (·, 1) :=
      (binds.visited _).trans (Branch.visited_visit_of_new records.visited new)
    refine ⟨_, arena, fun b => binds.parent (b.visit index), ?_, .returned rfl inside new visited⟩
    exact (Branch.continues_visit records index).trans
      (Branch.continues_of_eq (binds.visited (b.visit index)))

/-- However a walk goes on from where it comes to, branches count as they may. -/
theorem Walks.counted (walks : Walks invoke steps (fun _ _ _ _ => True) task s ends s')
    (course : Course invoke steps start s₀ trace task s) (unsplit : start.Unsplit 1 s₀.1)
    (begun : start.Records [] s₀.1) (counted : s.1.Counted steps.size) :
    s'.1.Counted steps.size := by
  induction walks generalizing trace with
  | @onward ctx id index next task s s₁ s' ends _ done goes _ ih =>
    refine ih (course.onward done goes) ?_
    obtain ⟨distinct, records⟩ := course.records unsplit begun
    have childless := counted.unforked
      ((course.leads.unsplit unsplit).unsplit id (List.mem_singleton_self id))
    cases step_recounts records done with
    | leaves _ => cases goes
    | refuses _ _ _ => cases goes
    | @executes _ _ f _ there new binds prepared _ =>
      have here := records.executes new binds
      have executed := counted.executes distinct records (Array.getElem?_eq_some_iff.1 there).1 new
        childless binds
      generalize s.1.modify id (f ∘ (·.visit index)) = a at prepared here executed
      obtain ⟨b, found, mine⟩ := here
      generalize s₁.1 = a' at prepared ⊢
      cases next with
      | next target =>
        obtain rfl : a' = a := prepared
        exact executed
      | stop t v => cases goes
      | spread slot values target =>
        obtain ⟨rfl, -⟩ : a' = a ∧ _ := prepared
        exact executed
      | split starts =>
        obtain ⟨-, prepared⟩ := prepared
        have one := executed.child found mine.running
        cases mode : ctx.options.forkMode with
        | symmetric =>
          rw [mode] at prepared
          obtain ⟨rfl, -⟩ := prepared
          refine one.child ?_ mine.running
          exact (a.branch?_child_of_lt id (Arena.lt_size_of_branch? found)).trans found
        | fallthroughOnly =>
          rw [mode] at prepared
          obtain ⟨rfl, -⟩ := prepared
          exact one
  | @stop ctx id index s s₁ s' t v _ done finished =>
    obtain ⟨distinct, records⟩ := course.records unsplit begun
    have childless := counted.unforked
      ((course.leads.unsplit unsplit).unsplit id (List.mem_singleton_self id))
    obtain ⟨b, found, mine⟩ := records
    obtain ⟨g, arena, keeps, continues, ended⟩ := step_ends found mine done finished
    exact arena ▸ counted.modify found keeps (ended.counted distinct) continues childless
  | allNil => exact counted
  | allCons before _ ihFirst ihRest =>
    exact ihRest (course.later before) (ihFirst course.first counted)
  | eachNil => exact counted
  | @eachCons ctx id index slot v values s s₁ s₂ s' ends more bound before _ ihFirst ihRest =>
    obtain ⟨f, binds, arena⟩ := bindSlot_bound bound
    obtain ⟨-, parent⟩ := course.records unsplit begun
    obtain ⟨b, found, mine⟩ := parent
    have made : s₁.1.Counted steps.size := by
      rw [arena]
      have one := counted.child found mine.running
      refine one.bind (Arena.Records.child ⟨b, found, mine⟩) ?_ binds
      rintro ⟨j, c, there, comes⟩
      have younger := one.older j _ ⟨c, there, comes⟩
      have inside := Arena.lt_size_of_branch? there
      rw [Arena.size_child] at inside
      omega
    exact ihRest (course.eachLater bound before) (ihFirst (course.eachFirst bound) made)

end Counted

/-- Where a path stops, its branch stays as it is then. -/
theorem Course.ends {invoke : Invoke} {steps : Array Step} {start : Task} {s₀ s s' s₁ : State}
    {trace ends : List Nat} {ctx : Context} {id index : Nat} {t : Termination} {v : Value}
    (course : Course invoke steps start s₀ trace (.path ctx id index) s)
    (walks : Walks invoke steps (fun _ _ _ _ => True) start s₀ ends s')
    (unsplit : start.Unsplit 1 s₀.1) (begun : start.Records [] s₀.1)
    (done : Gives (step invoke ctx steps id index) s (.stop t v) s₁) :
    id ∈ ends ∧ ∃ b, s'.1.branch? id = some b ∧ b.Ended steps.size trace index := by
  obtain ⟨b, found, mine⟩ := (course.records unsplit begun).2
  obtain ⟨_, s₂, finished⟩ := gives_some (finish id t v) s₁
  have stops : Walks invoke steps (fun _ _ _ _ => True) (.path ctx id index) s [id] s₂ :=
    .stop trivial done finished
  obtain ⟨there, same⟩ := course.leads.ended walks unsplit stops (List.mem_singleton_self id)
  obtain ⟨g, after, -, -, ended⟩ := step_ends found mine done finished
  refine ⟨there, g b, ?_, ended⟩
  rw [same, after, Arena.branch?_modify, if_pos rfl, found, Option.map_some]

/-! ## Resolutions -/

theorem Walk.openRoot_records {scope : Scope} {locals : List (String × Value)} {m : Memory}
    {s : State} (opened : Gives (openRoot scope locals) (.empty, m) () s) :
    s.1.Records [] 0 := by
  obtain ⟨f, binds, arena⟩ := openRoot_bound opened
  exact arena ▸ Arena.Records.bind ⟨_, Arena.branch?_push_size .empty _, rfl, rfl⟩ binds 0

theorem Walk.openRoot_counted {scope : Scope} {locals : List (String × Value)} {m : Memory}
    {s : State} (opened : Gives (openRoot scope locals) (.empty, m) () s) (n : Nat) :
    s.1.Counted n := by
  obtain ⟨size, uncome, -⟩ := openRoot_alone opened
  obtain ⟨b, found, records⟩ := openRoot_records opened
  refine ⟨fun k p comes => absurd comes (uncome k p), fun k c there => ?_, ?_⟩
  · obtain rfl : k = 0 := Nat.lt_one_iff.1 (size ▸ Arena.lt_size_of_branch? there)
    cases found.symm.trans there
    exact Branch.counted_of_ones ⟨List.nodup_nil, nofun⟩ records.visited
      (by rw [records.running]; nofun)
  · exact fun k c p d there parent _ => absurd ⟨c, there, parent⟩ (uncome k p)

/-- In the end of any resolution, a branch has counted instructions of the code, and at least as
often as the branch that it comes from; it has counted each once, but for one that it has counted
twice if it was cut off.  On its way from the root, a path executes each instruction at most once,
and its branch has counted just these.  Each end is that of a path: where one stops, its branch has
counted what it executed, and twice the instruction that it was refused because it had executed it
before. -/
theorem visits_counted_once (invoke : Invoke) (ctx : Context) (code : Code) (scope : Scope)
    (locals : List (String × Value)) (m : Memory) :
    let r := ((Analysis.resolve invoke ctx code scope locals).run m).1
    let steps := code.steps.toArray
    r.arena.Counted code.size ∧ ∃ s₀, Gives (openRoot scope locals) (.empty, m) () s₀ ∧
      (∀ trace ctx' k i s,
        Course invoke steps (.path ctx 0 0) s₀ trace (.path ctx' k i) s →
          Distinct code.size (executed code.size trace i) ∧
          (executed code.size trace i).length ≤ code.size ∧ s.1.Records trace k ∧
          (i ∈ trace → ∃ s₁, Gives (step invoke ctx' steps k i) s (.stop .loopCutoff .any) s₁) ∧
          ∀ t v s₁, Gives (step invoke ctx' steps k i) s (.stop t v) s₁ →
            k ∈ r.terminals ∧
              ∃ b, r.arena.branch? k = some b ∧ b.Ended code.size trace i) ∧
      ∀ e ∈ r.terminals, ∃ trace ctx' i s t v s₁,
        Course invoke steps (.path ctx 0 0) s₀ trace (.path ctx' e i) s ∧
          Gives (step invoke ctx' steps e i) s (.stop t v) s₁ := by
  intro r steps
  obtain ⟨s₀, ends, s', opened, walks, run⟩ := resolve_walks invoke ctx code scope locals m
  have arena : r.arena = s'.1 := congrArg (·.1.arena) run
  have terminals : r.terminals = ends := congrArg (·.1.terminals) run
  have size : steps.size = code.size := List.size_toArray
  have unsplit : (Task.path ctx 0 0).Unsplit 1 s₀.1 := unsplit_openRoot opened
  have begun : (Task.path ctx 0 0).Records [] s₀.1 := openRoot_records opened
  rw [arena, terminals, ← size]
  refine ⟨walks.counted .here unsplit begun (openRoot_counted opened _), s₀, opened, ?_, ?_⟩
  · intro trace ctx' k i s course
    obtain ⟨distinct, records⟩ := course.records unsplit begun
    refine ⟨distinct.executed i, (distinct.executed i).length_le, records, ?_, ?_⟩
    · intro again
      obtain ⟨next, s₁, done⟩ := gives_some (step invoke ctx' steps k i) s
      cases step_recounts records done with
      | leaves outside => exact absurd (distinct.inside i again) (Nat.not_lt.2 outside)
      | refuses _ _ _ => exact ⟨s₁, done⟩
      | executes _ new _ _ _ => exact absurd again new
    · exact fun t v s₁ done => course.ends walks unsplit begun done
  · exact fun e ended => Course.exists_stop .here walks ended

/-- A loop that a path can leave. -/
def loopingCode : Code :=
  .ofInstrs [.const 0 (.boolean true), .gotoIf 3 0 false, .goto 0, .ret (some 0)]

/-- What comes of it: one path comes back to the start of the loop and is refused, the other
returns. -/
def looping : Resolution :=
  ((Analysis.resolve (fun _ _ _ _ _ => pure []) (.outer .empty .standard) loopingCode .module
    []).run .empty).1

theorem visits_counted_once_looping :
    looping.terminals = [1, 2] ∧
      looping.arena.branches.toList.map (fun b => (b.termination, b.visited)) =
        [(none, [(1, 1), (0, 1)]), (some .loopCutoff, [(0, 2), (2, 1), (1, 1)]),
          (some .return_, [(3, 1), (1, 1), (0, 1)])] ∧
      looping.arena.Counted 4 ∧
      ∀ e ∈ looping.terminals, ∃ b trace i, looping.arena.branch? e = some b ∧
        b.Ended 4 trace i ∧ (executed 4 trace i).length ≤ 4 := by
  obtain ⟨counted, s₀, -, passes, comes⟩ := visits_counted_once (fun _ _ _ _ _ => pure [])
    (.outer .empty .standard) loopingCode .module [] .empty
  refine ⟨by decide +kernel, by decide +kernel, counted, fun e ended => ?_⟩
  obtain ⟨trace, ctx', i, s, t, v, s₁, course, stops⟩ := comes e ended
  obtain ⟨-, few, -, -, all⟩ := passes trace ctx' e i s course
  obtain ⟨-, b, found, ended⟩ := all t v s₁ stops
  exact ⟨b, trace, i, found, ended, few⟩

end PathTyping
