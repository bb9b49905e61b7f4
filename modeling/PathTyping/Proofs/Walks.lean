import PathTyping.Proofs.Steps
import PathTyping.Resolution
import Mathlib.Data.Finset.Card

/-!
# Walks as derivations

What a walk does, told as a relation without a bound: the rules of `Walks` follow a path step by
step and its parts one behind the other.  A walk carries what holds wherever one of its paths is
about to take a step.

1. Derivations are unique (`Walks.unique`).
2. A walk leaves every branch that was there as it was, but for those on which it begins, and ends
   on these or on new ones (`Walks.framed`).
3. A path executes each instruction at most once.  So a bound of as many steps as there are
   instructions that its lineage has not reached, and one, is enough: the walk with this bound has
   a derivation (`derives_of_fits`).
-/

namespace PathTyping

/-! ## The relation -/

/-- What is still to be walked. -/
inductive Task
  /-- A path from an index on. -/
  | path (ctx : Context) (id index : Nat)
  /-- Paths on branches that were made for them. -/
  | all (ctx : Context) (starts : List (Nat × Nat))
  /-- A path on a new branch for each value, which is put into the slot. -/
  | each (ctx : Context) (id : Nat) (slot : Slot) (values : List Value) (index : Nat)

/-- What is to be walked where a path on branch `id` goes on. -/
def Next.task? (ctx : Context) (id : Nat) : Next → Option Task
  | next index => some (.path ctx id index)
  | stop _ _ => none
  | split starts => some (.all ctx starts)
  | spread slot values index => some (.each ctx id slot values index)

/-- The limits under which a task is walked. -/
def Task.options : Task → AnalysisOptions
  | path ctx _ _ => ctx.options
  | all ctx _ => ctx.options
  | each ctx _ _ _ _ => ctx.options

theorem Next.options_task {next : Next} {ctx : Context} {id : Nat} {task : Task}
    (h : next.task? ctx id = some task) : task.options = ctx.options := by
  cases next <;> cases h <;> rfl

open Walk

/-- The task leads from one state to the other, with paths that end on the branches `ends`, and `P`
holds wherever a path is about to take a step. -/
inductive Walks (invoke : Invoke) (steps : Array Step)
    (P : Context → Nat → Nat → State → Prop) : Task → State → List Nat → State → Prop
  | onward {ctx : Context} {id index : Nat} {next : Next} {task : Task} {s s₁ s' : State}
      {ends : List Nat} (holds : P ctx id index s)
      (done : Gives (step invoke ctx steps id index) s next s₁)
      (goes : next.task? ctx id = some task) (rest : Walks invoke steps P task s₁ ends s') :
      Walks invoke steps P (.path ctx id index) s ends s'
  | stop {ctx : Context} {id index : Nat} {s s₁ s' : State} {t : Termination} {v : Value}
      (holds : P ctx id index s) (done : Gives (step invoke ctx steps id index) s (.stop t v) s₁)
      (finished : Gives (finish id t v) s₁ () s') :
      Walks invoke steps P (.path ctx id index) s [id] s'
  | allNil {ctx : Context} {s : State} : Walks invoke steps P (.all ctx []) s [] s
  | allCons {ctx : Context} {id index : Nat} {starts : List (Nat × Nat)} {s s₁ s' : State}
      {ends more : List Nat} (first : Walks invoke steps P (.path ctx id index) s ends s₁)
      (rest : Walks invoke steps P (.all ctx starts) s₁ more s') :
      Walks invoke steps P (.all ctx ((id, index) :: starts)) s (ends ++ more) s'
  | eachNil {ctx : Context} {id index : Nat} {slot : Slot} {s : State} :
      Walks invoke steps P (.each ctx id slot [] index) s [] s
  | eachCons {ctx : Context} {id index : Nat} {slot : Slot} {v : Value} {values : List Value}
      {s s₁ s₂ s' : State} {ends more : List Nat}
      (bound : Gives (bindSlot s.1.size slot v) (s.1.child id, s.2) () s₁)
      (first : Walks invoke steps P (.path (ctx.await values) s.1.size index) s₁ ends s₂)
      (rest : Walks invoke steps P (.each ctx id slot values index) s₂ more s') :
      Walks invoke steps P (.each ctx id slot (v :: values) index) s (ends ++ more) s'

theorem Walks.unique {invoke : Invoke} {steps : Array Step}
    {P Q : Context → Nat → Nat → State → Prop} {task : Task} {s s' s'' : State}
    {ends others : List Nat} (h : Walks invoke steps P task s ends s')
    (h' : Walks invoke steps Q task s others s'') : ends = others ∧ s' = s'' := by
  induction h generalizing others s'' with
  | onward _ done goes _ ih =>
    cases h' with
    | onward _ done' goes' rest' =>
      obtain ⟨rfl, rfl⟩ := done.unique done'
      cases goes.symm.trans goes'
      exact ih rest'
    | stop _ done' _ => cases (done.unique done').1; cases goes
  | stop _ done finished =>
    cases h' with
    | onward _ done' goes' _ => cases (done.unique done').1; cases goes'
    | stop _ done' finished' =>
      obtain ⟨⟨⟩, rfl⟩ := done.unique done'
      exact ⟨rfl, (finished.unique finished').2⟩
  | allNil => cases h'; exact ⟨rfl, rfl⟩
  | allCons _ _ ihFirst ihRest =>
    cases h' with
    | allCons first' rest' =>
      obtain ⟨rfl, rfl⟩ := ihFirst first'
      obtain ⟨rfl, rfl⟩ := ihRest rest'
      exact ⟨rfl, rfl⟩
  | eachNil => cases h'; exact ⟨rfl, rfl⟩
  | eachCons bound _ _ ihFirst ihRest =>
    cases h' with
    | eachCons bound' first' rest' =>
      obtain ⟨-, rfl⟩ := bound.unique bound'
      obtain ⟨rfl, rfl⟩ := ihFirst first'
      obtain ⟨rfl, rfl⟩ := ihRest rest'
      exact ⟨rfl, rfl⟩

/-! ## What a walk leaves alone -/

namespace Task

/-- The branches on which paths of the task begin. -/
def branches : Task → List Nat
  | path _ id _ => [id]
  | all _ starts => starts.map Prod.fst
  | each _ _ _ _ _ => []

/-- The branches of the task are there. -/
def Stands (a : Arena) : Task → Prop
  | path _ id _ => id < a.size
  | all _ starts => ∀ start ∈ starts, start.1 < a.size
  | each _ id _ _ _ => id < a.size

theorem Stands.rest {ctx : Context} {start : Nat × Nat} {starts : List (Nat × Nat)} {a a' : Arena}
    (h : (all ctx (start :: starts)).Stands a) (grows : a.size ≤ a'.size) :
    (all ctx starts).Stands a' := fun other hs =>
  Nat.lt_of_lt_of_le (h other (List.mem_cons_of_mem _ hs)) grows

end Task

/-- On behalf of a task, branches are added and all others are left alone. -/
structure Framed (task : Task) (a a' : Arena) : Prop where
  grows : a.size ≤ a'.size
  others : ∀ other < a.size, other ∉ task.branches → a'.branch? other = a.branch? other

/-- The branches are new ones or those of the task. -/
def Belong (task : Task) (a a' : Arena) (ids : List Nat) : Prop :=
  ∀ id ∈ ids, id < a'.size ∧ (id ∈ task.branches ∨ a.size ≤ id)

theorem Arena.exists_branch {a : Arena} {id : Nat} (h : id < a.size) :
    ∃ b, a.branch? id = some b := ⟨a.branches[id], Array.getElem?_eq_getElem h⟩

section Framed

variable {task task' : Task} {a a₁ a' : Arena} {ids : List Nat}

theorem framed_refl (task : Task) (a : Arena) : Framed task a a := ⟨Nat.le_refl _, fun _ _ _ => rfl⟩

theorem framed_child (task : Task) (id : Nat) (a : Arena) : Framed task a (a.child id) where
  grows := a.size_child id ▸ Nat.le_succ _
  others _ old _ := a.branch?_child_of_lt id old

theorem Framed.trans (h : Framed task a a₁) (h' : Framed task a₁ a') : Framed task a a' where
  grows := h.grows.trans h'.grows
  others other old apart :=
    (h'.others other (Nat.lt_of_lt_of_le old h.grows) apart).trans (h.others other old apart)

theorem Framed.weaken (h : Framed task' a a') (sub : task'.branches ⊆ task.branches) :
    Framed task a a' where
  grows := h.grows
  others other old apart := h.others other old fun mine => apart (sub mine)

/-- What begins on branches of the task or on new ones is done on behalf of the task. -/
theorem Framed.andThen (h : Framed task a a₁) (h' : Framed task' a₁ a')
    (belong : Belong task a a₁ task'.branches) : Framed task a a' where
  grows := h.grows.trans h'.grows
  others other old apart := by
    rw [h'.others other (Nat.lt_of_lt_of_le old h.grows), h.others other old apart]
    intro mine
    rcases (belong other mine).2 with mine | new
    · exact apart mine
    · exact absurd old (Nat.not_lt.2 new)

theorem Belong.andThen (h : Framed task a a₁) (h' : Belong task' a₁ a' ids)
    (belong : Belong task a a₁ task'.branches) : Belong task a a' ids := fun id hid =>
  ⟨(h' id hid).1, (h' id hid).2.elim (fun mine => (belong id mine).2) fun new =>
    .inr (h.grows.trans new)⟩

end Framed

section Walks

variable {invoke : Invoke} {steps : Array Step} {P : Context → Nat → Nat → State → Prop}
  {ctx : Context} {id index : Nat} {s s' : State} {task : Task} {next : Next} {ends : List Nat}

theorem Walk.Apart.framed {a a' : Arena} (h : Apart id a a') :
    Framed (.path ctx id index) a a' where
  grows := h.size.ge
  others other _ ne := h.others other (by simpa [Task.branches] using ne)

/-- A step leads to a task of its own branch or of new ones. -/
theorem step_framed (stands : id < s.1.size)
    (done : Gives (step invoke ctx steps id index) s next s') :
    Framed (.path ctx id index) s.1 s'.1 ∧ ∀ task, next.task? ctx id = some task →
      task.Stands s'.1 ∧ Belong (.path ctx id index) s.1 s'.1 task.branches := by
  obtain ⟨b, found⟩ := Arena.exists_branch stands
  obtain ⟨a, b', apart, -, -, -, goes⟩ := step_goes found done
  have framed : Framed (.path ctx id index) s.1 a := apart.framed
  generalize s'.1 = a' at goes ⊢
  cases next with
  | next target =>
    obtain rfl : a' = a := goes
    refine ⟨framed, ?_⟩
    rintro _ ⟨⟩
    have stands' := Nat.lt_of_lt_of_le stands framed.grows
    exact ⟨stands', fun e he => ⟨List.mem_singleton.1 he ▸ stands', .inl he⟩⟩
  | stop t v =>
    obtain rfl : a' = a := goes
    exact ⟨framed, nofun⟩
  | split starts =>
    obtain ⟨-, goes⟩ := goes
    have grows := framed.grows
    cases mode : ctx.options.forkMode with
    | symmetric =>
      rw [mode] at goes
      obtain ⟨rfl, i, j, rfl⟩ := goes
      refine ⟨(framed.trans (framed_child _ id _)).trans (framed_child _ id _), ?_⟩
      rintro _ ⟨⟩
      simp [Task.Stands, Belong, Task.branches]
      omega
    | fallthroughOnly =>
      rw [mode] at goes
      obtain ⟨rfl, i, rfl⟩ := goes
      refine ⟨framed.trans (framed_child _ id _), ?_⟩
      rintro _ ⟨⟩
      simp [Task.Stands, Belong, Task.branches, grows]
  | spread slot values target =>
    obtain ⟨rfl, -⟩ : a' = a ∧ _ := goes
    refine ⟨framed, ?_⟩
    rintro _ ⟨⟩
    exact ⟨Nat.lt_of_lt_of_le stands framed.grows, nofun⟩

theorem bindSlot_bound {slot : Slot} {v : Value} {u : Unit}
    (h : Gives (bindSlot id slot v) s u s') : Bound id s s' :=
  (admits_bound (fun _ _ _ _ _ => pure []) id).bindSlot slot v h

theorem Walk.Bound.apart (h : Bound id s s') : Apart id s.1 s'.1 := by
  obtain ⟨f, -, arena⟩ := h
  exact arena ▸ apart_modify id s.1 f

/-- A new branch, on which a value is put into a slot. -/
theorem size_of_bound {slot : Slot} {v : Value} {u : Unit}
    (h : Gives (bindSlot s.1.size slot v) (s.1.child id, s.2) u s') : s'.1.size = s.1.size + 1 := by
  rw [(bindSlot_bound h).apart.size, Arena.size_child]

theorem finish_apart {t : Termination} {v : Value} {u : Unit}
    (h : Gives (finish id t v) s u s') : Apart id s.1 s'.1 := by
  obtain ⟨w, s₁, made, h⟩ := gives_bind_iff.1 h
  obtain ⟨rfl, -⟩ := gives_lift_iff.1 made
  exact gives_modify_iff.1 h ▸ apart_modify id s.1 _

/-- A walk adds branches and leaves alone the others on which it does not begin; it ends on new
branches or on those on which it begins. -/
theorem Walks.framed (h : Walks invoke steps P task s ends s') (stands : task.Stands s.1) :
    Framed task s.1 s'.1 ∧ Belong task s.1 s'.1 ends := by
  induction h with
  | onward _ done goes _ ih =>
    obtain ⟨framed, leads⟩ := step_framed stands done
    obtain ⟨stands', belong⟩ := leads _ goes
    obtain ⟨framed', belong'⟩ := ih stands'
    exact ⟨framed.andThen framed' belong, belong'.andThen framed belong⟩
  | stop _ done finished =>
    have framed := (step_framed stands done).1.trans (finish_apart finished).framed
    refine ⟨framed, fun e he => ?_⟩
    obtain rfl := List.mem_singleton.1 he
    exact ⟨Nat.lt_of_lt_of_le stands framed.grows, .inl he⟩
  | allNil => exact ⟨framed_refl _ _, nofun⟩
  | allCons _ _ ihFirst ihRest =>
    obtain ⟨first, ended⟩ := ihFirst (stands _ List.mem_cons_self)
    obtain ⟨rest, ended'⟩ := ihRest (Task.Stands.rest stands first.grows)
    refine ⟨(first.weaken ?_).trans (rest.weaken ?_), fun e he => ?_⟩
    · exact fun e he => List.mem_singleton.1 he ▸ List.mem_cons_self
    · exact fun e he => List.mem_cons_of_mem _ he
    · rcases List.mem_append.1 he with he | he
      · obtain ⟨old, mine⟩ := ended e he
        refine ⟨Nat.lt_of_lt_of_le old rest.grows, mine.imp_left fun mine => ?_⟩
        exact List.mem_singleton.1 mine ▸ List.mem_cons_self
      · exact ⟨(ended' e he).1, (ended' e he).2.imp (List.mem_cons_of_mem _) first.grows.trans⟩
  | eachNil => exact ⟨framed_refl _ _, nofun⟩
  | @eachCons ctx id index slot v values s s₁ s₂ s' ends more bound _ _ ihFirst ihRest =>
    have apart := (bindSlot_bound bound).apart
    have size := size_of_bound bound
    have made : Framed (.each ctx id slot (v :: values) index) s.1 s₁.1 :=
      ⟨size ▸ Nat.le_succ _, fun other old _ => (apart.others other (Nat.ne_of_lt old)).trans
        (s.1.branch?_child_of_lt id old)⟩
    have new : Belong (.each ctx id slot (v :: values) index) s.1 s₁.1 [s.1.size] := fun e he => by
      obtain rfl := List.mem_singleton.1 he
      exact ⟨size ▸ Nat.lt_succ_self _, .inr (Nat.le_refl _)⟩
    obtain ⟨first, ended⟩ := ihFirst (show s.1.size < s₁.1.size from size ▸ Nat.lt_succ_self _)
    have done := made.andThen first new
    obtain ⟨rest, ended'⟩ := ihRest (Nat.lt_of_lt_of_le stands done.grows)
    refine ⟨done.andThen rest nofun, fun e he => ?_⟩
    rcases List.mem_append.1 he with he | he
    · exact ⟨Nat.lt_of_lt_of_le (ended e he).1 rest.grows, (ended.andThen made new e he).2⟩
    · exact (Belong.andThen done ended' nofun) e he

/-- Neither a new branch for a value nor the walk on it changes the branches that were there. -/
theorem branch?_of_each {slot : Slot} {v : Value} {u : Unit} {k : Nat}
    (bound : Gives (bindSlot s.1.size slot v) (s.1.child id, s.2) u s₁)
    (walks : Walks invoke steps P (.path ctx s.1.size index) s₁ ends s') (old : k < s.1.size) :
    s'.1.branch? k = s.1.branch? k := by
  have apart := (bindSlot_bound bound).apart
  have inside : s.1.size < s₁.1.size := size_of_bound bound ▸ Nat.lt_succ_self _
  have ne : k ≠ s.1.size := Nat.ne_of_lt old
  have framed := (walks.framed inside).1
  rw [framed.others k (old.trans inside) fun mine => ne (List.mem_singleton.1 mine),
    apart.others k ne, s.1.branch?_child_of_lt id old]

end Walks

/-! ## The bound of a walk -/

namespace Branch

/-- How many of `n` instructions the lineage of a branch has not reached. -/
def unseen (n : Nat) (b : Branch) : Nat := ((Finset.range n).filter fun i => b.visits i = 0).card

theorem unseen_of_visited {b b' : Branch} (n : Nat) (h : b'.visited = b.visited) :
    b'.unseen n = b.unseen n :=
  congrArg Finset.card (Finset.filter_congr fun i _ => by rw [visits, visits, h])

theorem unseen_visit_lt {b : Branch} {n index : Nat} (h : index < n) (first : b.visits index = 0) :
    (b.visit index).unseen n < b.unseen n := by
  refine Finset.card_lt_card ⟨fun i hi => ?_, fun sub => ?_⟩
  · obtain ⟨inside, unseen⟩ := Finset.mem_filter.1 hi
    refine Finset.mem_filter.2 ⟨inside, ?_⟩
    by_cases same : index = i
    · exact same ▸ first
    · rwa [visits_visit_of_ne b same] at unseen
  · have := (Finset.mem_filter.1 (sub (Finset.mem_filter.2 ⟨Finset.mem_range.2 h, first⟩))).2
    rw [visits_visit_self, first] at this
    exact absurd this (by decide)

theorem unseen_fresh (parent : Parent) (n : Nat) : (fresh parent []).unseen n = n := by
  simp [unseen, visits, fresh]

end Branch

namespace Task

/-- A bound of `fuel` is enough for a path on branch `id`. -/
def Enough (n fuel : Nat) (a : Arena) (id : Nat) : Prop :=
  ∃ b, a.branch? id = some b ∧ b.unseen n < fuel

/-- A bound of `fuel` is enough for the paths of the task. -/
def Fits (n fuel : Nat) (a : Arena) : Task → Prop
  | path _ id _ => Enough n fuel a id
  | all _ starts => (starts.map Prod.fst).Nodup ∧ ∀ start ∈ starts, Enough n fuel a start.1
  | each _ id _ _ _ => Enough n fuel a id

/-- Walks the task with at most `fuel` steps on each path. -/
def run (invoke : Invoke) (steps : Array Step) (fuel : Nat) : Task → Walk (List Nat)
  | path ctx id index => walk invoke steps fuel ctx id index
  | all ctx starts => walkAll (walk invoke steps fuel ctx) starts
  | each ctx id slot values index =>
    walkEach (fun ctx branch => walk invoke steps fuel ctx branch index) ctx id slot values

variable {n fuel : Nat} {a a' : Arena} {id : Nat}

theorem Enough.child (h : Enough n fuel a id) : Enough n fuel (a.child id) a.size := by
  obtain ⟨b, found, few⟩ := h
  refine ⟨_, a.branch?_child_size id, ?_⟩
  rw [found, Option.elim_some]
  exact (Branch.unseen_of_visited n rfl).trans_lt few

theorem Enough.lt (h : Enough n fuel a id) : id < a.size :=
  h.elim fun _ hb => Arena.lt_size_of_branch? hb.1

theorem Enough.of_eq (h : Enough n fuel a id) (same : a'.branch? id = a.branch? id) :
    Enough n fuel a' id := h.imp fun _ hb => ⟨same.trans hb.1, hb.2⟩

theorem Enough.bound {s s' : State} {other : Nat} (h : Enough n fuel s.1 id)
    (bound : Bound other s s') : Enough n fuel s'.1 id := by
  obtain ⟨b, found, few⟩ := h
  obtain ⟨f, hf, arena⟩ := bound
  rw [arena]
  by_cases same : other = id
  · refine ⟨f b, by rw [Arena.branch?_modify, if_pos same, found, Option.map_some], ?_⟩
    rwa [Branch.unseen_of_visited n (hf.visited b)]
  · exact ⟨b, (Arena.branch?_modify_of_ne _ f same).trans found, few⟩

end Task

section Bound

variable {invoke : Invoke} {steps : Array Step} {ctx : Context} {id index : Nat}
  {s s' : State} {task : Task} {next : Next} {ends : List Nat} {fuel : Nat}

theorem step_fits (fits : Task.Enough steps.size (fuel + 1) s.1 id)
    (done : Gives (step invoke ctx steps id index) s next s')
    (goes : next.task? ctx id = some task) : task.Fits steps.size fuel s'.1 := by
  obtain ⟨b, found, few⟩ := fits
  obtain ⟨a, b', apart, found', -, advances, prepared⟩ := step_goes found done
  have enough (h : index < steps.size ∧ b.visits index = 0 ∧
      b'.visited = (b.visit index).visited) : Task.Enough steps.size fuel a id := by
    obtain ⟨inside, first, visited⟩ := h
    have less := Branch.unseen_visit_lt inside first
    rw [← Branch.unseen_of_visited _ visited] at less
    exact ⟨b', found', Nat.lt_of_lt_of_le less (Nat.le_of_lt_succ few)⟩
  generalize s'.1 = a' at prepared ⊢
  cases next with
  | next target =>
    cases goes
    obtain rfl : a' = a := prepared
    exact enough advances
  | stop t v => cases goes
  | split starts =>
    cases goes
    have parent := enough advances
    obtain ⟨-, prepared⟩ := prepared
    cases mode : ctx.options.forkMode with
    | symmetric =>
      rw [mode] at prepared
      obtain ⟨rfl, i, j, rfl⟩ := prepared
      have kept : Task.Enough steps.size fuel (a.child id) id :=
        parent.of_eq (a.branch?_child_of_lt id parent.lt)
      have taken := kept.child
      rw [Arena.size_child] at taken
      refine ⟨by simp, fun start hs => ?_⟩
      rcases List.mem_pair.1 hs with rfl | rfl
      · exact parent.child.of_eq (Arena.branch?_child_of_lt _ id (by simp))
      · exact taken
    | fallthroughOnly =>
      rw [mode] at prepared
      obtain ⟨rfl, i, rfl⟩ := prepared
      refine ⟨List.nodup_singleton _, fun start hs => ?_⟩
      exact List.mem_singleton.1 hs ▸ parent.child
  | spread slot values target =>
    cases goes
    obtain ⟨rfl, -⟩ : a' = a ∧ _ := prepared
    exact enough advances

/-- A walk with a bound goes through as `Walks` tells. -/
def Derives (invoke : Invoke) (steps : Array Step) (fuel : Nat) (task : Task) (s : State) : Prop :=
  ∃ ends s', Gives (task.run invoke steps fuel) s ends s' ∧
    Walks invoke steps (fun _ _ _ _ => True) task s ends s'

theorem derives_all
    (paths : ∀ ctx id index s, Task.Enough steps.size fuel s.1 id →
      Derives invoke steps fuel (.path ctx id index) s)
    (starts : List (Nat × Nat)) :
    ∀ s, Task.Fits steps.size fuel s.1 (.all ctx starts) →
      Derives invoke steps fuel (.all ctx starts) s := by
  induction starts with
  | nil => exact fun s _ => ⟨[], s, rfl, .allNil⟩
  | cons start rest ih =>
    rintro s ⟨apart, enough⟩
    obtain ⟨id, index⟩ := start
    obtain ⟨notLater, apart⟩ := List.nodup_cons.1 apart
    have mine := enough _ List.mem_cons_self
    obtain ⟨ends, s₁, given, walks⟩ := paths ctx id index s mine
    obtain ⟨framed, -⟩ := walks.framed mine.lt
    obtain ⟨more, s', given', walks'⟩ := ih s₁ ⟨apart, fun start hs => by
      have later := enough start (List.mem_cons_of_mem _ hs)
      refine later.of_eq (framed.others _ later.lt fun same => notLater ?_)
      exact List.mem_map.2 ⟨start, hs, List.mem_singleton.1 same⟩⟩
    exact ⟨ends ++ more, s', gives_bind given (gives_bind given' rfl), .allCons walks walks'⟩

theorem derives_each
    (paths : ∀ ctx id index s, Task.Enough steps.size fuel s.1 id →
      Derives invoke steps fuel (.path ctx id index) s)
    (slot : Slot) (values : List Value) :
    ∀ s, Task.Fits steps.size fuel s.1 (.each ctx id slot values index) →
      Derives invoke steps fuel (.each ctx id slot values index) s := by
  induction values with
  | nil => exact fun s _ => ⟨[], s, rfl, .eachNil⟩
  | cons v values ih =>
    intro s enough
    obtain ⟨_, s₁, bound⟩ := gives_some (bindSlot s.1.size slot v) (s.1.child id, s.2)
    obtain ⟨ends, s₂, given, walks⟩ := paths (ctx.await values) s.1.size index s₁
      (enough.child.bound (bindSlot_bound bound))
    have size := size_of_bound bound
    have kept : Task.Enough steps.size fuel s₁.1 id :=
      (enough.of_eq (s.1.branch?_child_of_lt id enough.lt)).bound (bindSlot_bound bound)
    obtain ⟨framed, -⟩ := walks.framed (show s.1.size < s₁.1.size from size ▸ Nat.lt_succ_self _)
    obtain ⟨more, s', given', walks'⟩ := ih s₂ <| kept.of_eq <|
      framed.others id kept.lt fun same => Nat.ne_of_lt enough.lt (List.mem_singleton.1 same)
    exact ⟨ends ++ more, s', gives_bind (gives_child_iff.2 ⟨rfl, rfl⟩) <| gives_bind bound <|
      gives_bind given <| gives_bind given' rfl, .eachCons bound walks walks'⟩

theorem derives_of_paths
    (paths : ∀ ctx id index s, Task.Enough steps.size fuel s.1 id →
      Derives invoke steps fuel (.path ctx id index) s)
    {task : Task} {s : State} (fits : task.Fits steps.size fuel s.1) :
    Derives invoke steps fuel task s := by
  cases task with
  | path ctx id index => exact paths ctx id index s fits
  | all ctx starts => exact derives_all paths starts s fits
  | each ctx id slot values index => exact derives_each paths slot values s fits

theorem walk_onward {s₁ : State} (done : Gives (step invoke ctx steps id index) s next s₁)
    (goes : next.task? ctx id = some task) (given : Gives (task.run invoke steps fuel) s₁ ends s') :
    Gives (walk invoke steps (fuel + 1) ctx id index) s ends s' := by
  rw [walk]
  refine gives_bind done ?_
  cases next with
  | stop t v => cases goes
  | _ => cases goes; exact given

theorem walk_stop {s₁ : State} {t : Termination} {v : Value}
    (done : Gives (step invoke ctx steps id index) s (.stop t v) s₁)
    (finished : Gives (finish id t v) s₁ () s') :
    Gives (walk invoke steps (fuel + 1) ctx id index) s [id] s' := by
  rw [walk]
  exact gives_bind done (gives_bind finished rfl)

theorem derives_path : ∀ (fuel : Nat) (ctx : Context) (id index : Nat) (s : State),
    Task.Enough steps.size fuel s.1 id → Derives invoke steps fuel (.path ctx id index) s
  | 0, _, _, _, _, ⟨_, _, few⟩ => absurd few (Nat.not_lt_zero _)
  | fuel + 1, ctx, id, index, s, enough => by
    obtain ⟨next, s₁, done⟩ := gives_some (step invoke ctx steps id index) s
    cases goes : next.task? ctx id with
    | some task =>
      obtain ⟨ends, s', given, walks⟩ :=
        derives_of_paths (derives_path fuel) (step_fits enough done goes)
      exact ⟨ends, s', walk_onward done goes given, .onward trivial done goes walks⟩
    | none =>
      cases next with
      | stop t v =>
        obtain ⟨_, s', finished⟩ := gives_some (finish id t v) s₁
        exact ⟨[id], s', walk_stop done finished, .stop trivial done finished⟩
      | _ => cases goes

/-- A walk with enough of a bound is a walk. -/
theorem derives_of_fits {task : Task} {s : State} (fits : task.Fits steps.size fuel s.1) :
    Derives invoke steps fuel task s := derives_of_paths (derives_path fuel) fits

end Bound

/-! ## What a walk does to the memory -/

/-- Reports, new objects and calls respect the relation between memories. -/
structure Passes (invoke : Invoke) (Q : Memory → Memory → Prop) : Prop where
  refl : ∀ m, Q m m
  trans : ∀ {m m' m''}, Q m m' → Q m' m'' → Q m m''
  report : ∀ m d, Q m (m.add d)
  place : ∀ m v, Q m (m.place v).2
  invoke : ∀ m ctx id receiver arguments span,
    Q m ((invoke ctx id receiver arguments span).run m).2

section Passes

variable {invoke : Invoke} {steps : Array Step} {P : Context → Nat → Nat → State → Prop}
  {Q : Memory → Memory → Prop} {ctx : Context} {id index : Nat} {s s' : State} {task : Task}
  {next : Next} {ends : List Nat}

theorem Passes.admits (passes : Passes invoke Q) (id : Nat) :
    Admits invoke id fun s s' => Q s.2 s'.2 where
  refl _ := passes.refl _
  trans := passes.trans
  report _ m d := passes.report m d
  place _ m v := passes.place m v
  bind _ _ _ _ := passes.refl _
  invoke _ := passes.invoke

theorem Passes.step (passes : Passes invoke Q)
    (done : Gives (step invoke ctx steps id index) s next s') : Q s.2 s'.2 := by
  have admits := passes.admits id
  unfold Walk.step at done
  split at done
  · exact admits.seq admits.latest (fun _ => admits.returns _) done
  · obtain ⟨first, s₁, arrived, done⟩ := gives_bind_iff.1 done
    have memory : s₁.2 = s.2 := (congrArg Prod.snd arrived).symm
    rw [← memory]
    split at done
    · obtain ⟨s₂, related, same, -⟩ := admits.execute ctx index _ done
      exact same ▸ related
    · exact admits.seq admits.looks (fun _ => admits.seq (admits.reports _ _) fun _ =>
        admits.returns _) done

theorem Passes.finish (passes : Passes invoke Q) {t : Termination} {v : Value} {u : Unit}
    (done : Gives (finish id t v) s u s') : Q s.2 s'.2 := by
  have admits := passes.admits id
  exact admits.seq (admits.fresh v) (fun _ => within_modify fun _ m => passes.refl m) done

theorem Walks.passes (h : Walks invoke steps P task s ends s') (passes : Passes invoke Q) :
    Q s.2 s'.2 := by
  induction h with
  | onward _ done _ _ ih => exact passes.trans (passes.step done) ih
  | stop _ done finished => exact passes.trans (passes.step done) (passes.finish finished)
  | allNil => exact passes.refl _
  | allCons _ _ first rest => exact passes.trans first rest
  | eachNil => exact passes.refl _
  | eachCons bound _ _ first rest =>
    have made := (passes.admits _).bindSlot _ _ bound
    exact passes.trans made (passes.trans first rest)

end Passes

/-! ## Resolutions -/

section Resolve

variable {invoke : Invoke} {ctx : Context} {code : Code} {scope : Scope}
  {locals : List (String × Value)} {m : Memory}

theorem Walk.Admits.bindAll {R : State → State → Prop} (admits : Admits invoke 0 R)
    (locals : List (String × Value)) :
    Within R (locals.forM fun (name, v) => Walk.bindVariable 0 name v) := by
  induction locals with
  | nil => exact admits.returns _
  | cons p rest ih => exact admits.seq (admits.bindVariable p.1 p.2) fun _ => ih

theorem openRoot_bound {s : State} (h : Gives (openRoot scope locals) (.empty, m) () s) :
    Bound 0 (Arena.empty.root scope, m) s := by
  obtain ⟨_, s₁, planted, bound⟩ := gives_bind_iff.1 h
  obtain rfl := gives_modify_iff.1 planted
  exact (admits_bound (fun _ _ _ _ _ => pure []) 0).bindAll locals bound

/-- A resolution is a walk from a fresh root. -/
theorem resolve_walks (invoke : Invoke) (ctx : Context) (code : Code) (scope : Scope)
    (locals : List (String × Value)) (m : Memory) :
    ∃ s ends s', Gives (openRoot scope locals) (.empty, m) () s ∧
      Walks invoke code.steps.toArray (fun _ _ _ _ => True) (.path ctx 0 0) s ends s' ∧
      (Analysis.resolve invoke ctx code scope locals).run m = (⟨s'.1, ends, code⟩, s'.2) := by
  obtain ⟨_, s, opened⟩ := gives_some (openRoot scope locals) (.empty, m)
  have fits : (Task.path ctx 0 0).Fits code.steps.toArray.size (code.size + 1) s.1 := by
    refine Task.Enough.bound ⟨_, Arena.branch?_push_size .empty _, ?_⟩ (openRoot_bound opened)
    rw [Branch.unseen_fresh]
    exact Nat.lt_succ_self _
  obtain ⟨ends, s', given, walks⟩ := derives_of_fits fits
  have whole : Gives (fromRoot invoke ctx code scope locals) (.empty, m) ends s' :=
    gives_bind opened given
  refine ⟨s, ends, s', opened, walks, ?_⟩
  rw [Analysis.resolve, StateT.run_bind, whole]
  rfl

end Resolve

end PathTyping
