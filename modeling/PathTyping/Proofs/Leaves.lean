import PathTyping.Proofs.Walks
import PathTyping.Query

/-!
# The ends of a resolution

The branches of a resolution are a tree.  While it grows, some of its branches are open: a path
stands on them and has neither ended nor split.  Of all others a branch either has ended, and then
nothing comes from it, or it has split, and then something does.  When the walk is over no branch is
open, so the ends are the leaves.

1. Where a path splits and where it ends, one open branch is closed (`Grows.child`,
   `Grows.finish`).
2. A step keeps the ends (`step_marks`), and a walk closes the branches on which it begins and all
   that it makes (`Walks.grows`).
3. The ends of a resolution are its leaves, and every lineage ends at the one root
   (`resolve_bears`, `queries_bear`).
-/

namespace PathTyping

open Walk

/-! ## Trees that grow -/

/-- A branch comes from `id`. -/
def Arena.Forks (a : Arena) (id : Nat) : Prop :=
  ∃ k b, a.branch? k = some b ∧ b.parent = .branch id

/-- A tree with a root in `scope`, on some of whose branches paths stand, and on others of which
paths have ended. -/
structure Grows (scope : Scope) (stands : Set Nat) (ends : List Nat) (a : Arena) : Prop where
  root : ∃ b, a.branch? 0 = some b ∧ b.parent = .root scope
  older : ∀ ⦃id b⦄, a.branch? id = some b → id ≠ 0 → ∃ p < id, b.parent = .branch p
  looped : ∀ ⦃id b⦄, a.branch? id = some b → (b.looped = true ↔ b.termination = some .loopCutoff)
  returned : ∀ ⦃id b⦄, a.branch? id = some b → b.returned.isSome = b.termination.isSome
  nodup : ends.Nodup
  ended : ∀ id, id ∈ ends ↔ ∃ b, a.branch? id = some b ∧ b.termination.isSome = true
  leaf : ∀ id ∈ ends, ¬ a.Forks id
  standing : ∀ id ∈ stands, id < a.size ∧ id ∉ ends ∧ ¬ a.Forks id
  split : ∀ id < a.size, id ∉ stands → id ∉ ends → a.Forks id

/-- Of a branch, neither where it comes from nor how it ends is changed. -/
structure Marks (f : Branch → Branch) : Prop where
  parent : ∀ b, (f b).parent = b.parent
  looped : ∀ b, (f b).looped = b.looped
  termination : ∀ b, (f b).termination = b.termination
  returned : ∀ b, (f b).returned = b.returned

theorem Walk.Binds.marks {f : Branch → Branch} (h : Binds f) : Marks f :=
  ⟨h.parent, h.looped, h.termination, h.returned⟩

theorem marks_id : Marks fun b => b := ⟨fun _ => rfl, fun _ => rfl, fun _ => rfl, fun _ => rfl⟩

theorem Marks.visit (f : Branch → Branch) (h : Marks f) (index : Nat) :
    Marks (f ∘ (·.visit index)) :=
  ⟨fun b => h.parent (b.visit index), fun b => h.looped (b.visit index),
    fun b => h.termination (b.visit index), fun b => h.returned (b.visit index)⟩

namespace Arena

variable {a : Arena} {id k : Nat} {f : Branch → Branch} {b : Branch}

theorem branch?_of_modify (h : (a.modify id f).branch? k = some b) :
    ∃ b', a.branch? k = some b' ∧ (b = b' ∨ id = k ∧ b = f b') := by
  rw [branch?_modify] at h
  split at h
  · next same =>
    obtain ⟨b', found, rfl⟩ := Option.map_eq_some_iff.1 h
    exact ⟨b', found, .inr ⟨same, rfl⟩⟩
  · exact ⟨b, h, .inl rfl⟩

theorem branch?_of_child (h : (a.child id).branch? k = some b) :
    a.branch? k = some b ∨
      k = a.size ∧ b = .fresh (.branch id) ((a.branch? id).elim [] (·.visited)) := by
  have inside := lt_size_of_branch? h
  rw [size_child] at inside
  rcases Nat.lt_succ_iff_lt_or_eq.1 inside with old | rfl
  · exact .inl (branch?_child_of_lt a id old ▸ h)
  · exact .inr ⟨rfl, (Option.some.inj ((branch?_child_size a id).symm.trans h)).symm⟩

theorem forks_modify (keeps : ∀ b, (f b).parent = b.parent) (k : Nat) :
    (a.modify id f).Forks k ↔ a.Forks k := by
  constructor
  · rintro ⟨j, b, found, parent⟩
    obtain ⟨b', found', rfl | ⟨-, rfl⟩⟩ := branch?_of_modify found
    · exact ⟨j, _, found', parent⟩
    · exact ⟨j, b', found', (keeps b').symm.trans parent⟩
  · rintro ⟨j, b, found, parent⟩
    by_cases same : id = j
    · exact ⟨j, f b, by rw [branch?_modify, if_pos same, found]; rfl, (keeps b).trans parent⟩
    · exact ⟨j, b, (branch?_modify_of_ne a f same).trans found, parent⟩

theorem forks_child_iff : (a.child id).Forks k ↔ k = id ∨ a.Forks k := by
  constructor
  · rintro ⟨j, b, found, parent⟩
    rcases branch?_of_child found with old | ⟨-, rfl⟩
    · exact .inr ⟨j, b, old, parent⟩
    · exact .inl (Parent.branch.inj parent).symm
  · rintro (rfl | ⟨j, b, found, parent⟩)
    · exact ⟨a.size, _, branch?_child_size a k, rfl⟩
    · exact ⟨j, b, (branch?_child_of_lt a id (lt_size_of_branch? found)).trans found, parent⟩

end Arena

namespace Grows

variable {scope : Scope} {stands : Set Nat} {ends : List Nat} {a : Arena} {id k : Nat}
  {b : Branch} {f : Branch → Branch}

theorem lt_of_forks (h : Grows scope stands ends a) (found : a.branch? k = some b)
    (parent : b.parent = .branch id) : id < k := by
  have notRoot : k ≠ 0 := by
    rintro rfl
    obtain ⟨r, root, atRoot⟩ := h.root
    cases root.symm.trans found
    cases atRoot.symm.trans parent
  obtain ⟨p, older, parent'⟩ := h.older found notRoot
  exact Parent.branch.inj (parent'.symm.trans parent) ▸ older

theorem childless_size (h : Grows scope stands ends a) : ¬ a.Forks a.size := by
  rintro ⟨k, b, found, parent⟩
  exact Nat.lt_asymm (h.lt_of_forks found parent) (Arena.lt_size_of_branch? found)

theorem lt_of_ended (h : Grows scope stands ends a) (ended : id ∈ ends) : id < a.size := by
  obtain ⟨b, found, -⟩ := (h.ended id).1 ended
  exact Arena.lt_size_of_branch? found

theorem unfinished (h : Grows scope stands ends a) (stand : id ∈ stands) :
    ∃ b, a.branch? id = some b ∧ b.termination = none := by
  obtain ⟨inside, running, -⟩ := h.standing id stand
  obtain ⟨b, found⟩ := Arena.exists_branch inside
  refine ⟨b, found, Option.not_isSome_iff_eq_none.1 fun terminated => running ?_⟩
  exact (h.ended id).2 ⟨b, found, terminated⟩

theorem modify (h : Grows scope stands ends a) (marks : Marks f) (id : Nat) :
    Grows scope stands ends (a.modify id f) where
  root := by
    obtain ⟨b, found, parent⟩ := h.root
    by_cases same : id = 0
    · exact ⟨f b, by rw [Arena.branch?_modify, if_pos same, found]; rfl,
        (marks.parent b).trans parent⟩
    · exact ⟨b, (Arena.branch?_modify_of_ne a f same).trans found, parent⟩
  older k b found notRoot := by
    obtain ⟨b', found', rfl | ⟨-, rfl⟩⟩ := Arena.branch?_of_modify found
    · exact h.older found' notRoot
    · exact marks.parent b' ▸ h.older found' notRoot
  looped k b found := by
    obtain ⟨b', found', rfl | ⟨-, rfl⟩⟩ := Arena.branch?_of_modify found
    · exact h.looped found'
    · exact marks.looped b' ▸ marks.termination b' ▸ h.looped found'
  returned k b found := by
    obtain ⟨b', found', rfl | ⟨-, rfl⟩⟩ := Arena.branch?_of_modify found
    · exact h.returned found'
    · exact marks.returned b' ▸ marks.termination b' ▸ h.returned found'
  nodup := h.nodup
  ended k := by
    rw [h.ended k]
    constructor
    · rintro ⟨b, found, terminated⟩
      by_cases same : id = k
      · exact ⟨f b, by rw [Arena.branch?_modify, if_pos same, found]; rfl,
          (congrArg Option.isSome (marks.termination b)).trans terminated⟩
      · exact ⟨b, (Arena.branch?_modify_of_ne a f same).trans found, terminated⟩
    · rintro ⟨b, found, terminated⟩
      obtain ⟨b', found', rfl | ⟨-, rfl⟩⟩ := Arena.branch?_of_modify found
      · exact ⟨_, found', terminated⟩
      · exact ⟨b', found', marks.termination b' ▸ terminated⟩
  leaf k ended := (Arena.forks_modify marks.parent k).not.2 (h.leaf k ended)
  standing k stand := by
    obtain ⟨inside, running, childless⟩ := h.standing k stand
    exact ⟨(a.size_modify id f).symm ▸ inside, running,
      (Arena.forks_modify marks.parent k).not.2 childless⟩
  split k inside moved running :=
    (Arena.forks_modify marks.parent k).2 (h.split k (a.size_modify id f ▸ inside) moved running)

/-- A path that splits leaves its branch for a new one. -/
theorem child (h : Grows scope stands ends a) (inside : id < a.size) (running : id ∉ ends) :
    Grows scope (insert a.size (stands \ {id})) ends (a.child id) where
  root := h.root.imp fun _ hb =>
    ⟨(a.branch?_child_of_lt id (Arena.lt_size_of_branch? hb.1)).trans hb.1, hb.2⟩
  older k b found notRoot := by
    rcases Arena.branch?_of_child found with old | ⟨rfl, rfl⟩
    · exact h.older old notRoot
    · exact ⟨id, inside, rfl⟩
  looped k b found := by
    rcases Arena.branch?_of_child found with old | ⟨-, rfl⟩
    · exact h.looped old
    · exact ⟨nofun, nofun⟩
  returned k b found := by
    rcases Arena.branch?_of_child found with old | ⟨-, rfl⟩
    · exact h.returned old
    · rfl
  nodup := h.nodup
  ended k := by
    rw [h.ended k]
    constructor
    · rintro ⟨b, found, terminated⟩
      exact ⟨b, (a.branch?_child_of_lt id (Arena.lt_size_of_branch? found)).trans found, terminated⟩
    · rintro ⟨b, found, terminated⟩
      rcases Arena.branch?_of_child found with old | ⟨-, rfl⟩
      · exact ⟨b, old, terminated⟩
      · cases terminated
  leaf k ended forks := by
    rcases Arena.forks_child_iff.1 forks with rfl | forks
    · exact running ended
    · exact h.leaf k ended forks
  standing k stand := by
    rw [Arena.size_child, Arena.forks_child_iff]
    rcases stand with rfl | ⟨stand, other⟩
    · refine ⟨Nat.lt_succ_self _, fun ended => Nat.lt_irrefl _ (h.lt_of_ended ended), ?_⟩
      rintro (same | forks)
      · exact Nat.ne_of_gt inside same
      · exact h.childless_size forks
    · obtain ⟨inside', running', childless⟩ := h.standing k stand
      refine ⟨Nat.lt_succ_of_lt inside', running', ?_⟩
      rintro (same | forks)
      · exact other same
      · exact childless forks
  split k inside' moved running' := by
    rw [Arena.size_child] at inside'
    rw [Arena.forks_child_iff]
    by_cases same : k = id
    · exact .inl same
    · refine .inr (h.split k ?_ (fun stand => moved (.inr ⟨stand, same⟩)) running')
      exact Nat.lt_of_le_of_ne (Nat.le_of_lt_succ inside') fun new => moved (.inl new)

/-- A path that ends closes its branch. -/
theorem finish (h : Grows scope stands ends a) (stand : id ∈ stands) (t : Termination)
    (v : Value) : Grows scope (stands \ {id}) (ends ++ [id]) (a.modify id (·.finish t v)) := by
  obtain ⟨inside, running, childless⟩ := h.standing id stand
  obtain ⟨b, found, unfinished⟩ := h.unfinished stand
  have unlooped : b.looped = false := by
    rw [← Bool.not_eq_true, h.looped found, unfinished]
    nofun
  have forks (k : Nat) : (a.modify id (·.finish t v)).Forks k ↔ a.Forks k :=
    Arena.forks_modify (f := (·.finish t v)) (fun _ => rfl) k
  have finished : (a.modify id (·.finish t v)).branch? id = some (b.finish t v) := by
    rw [Arena.branch?_modify, if_pos rfl, found]; rfl
  have others {k : Nat} (ne : k ≠ id) :
      (a.modify id (·.finish t v)).branch? k = a.branch? k :=
    a.branch?_modify_of_ne _ (Ne.symm ne)
  -- Each fact about all branches is that about the others, and one about the branch that is closed.
  refine ⟨?_, fun k c at_ => ?_, fun k c at_ => ?_, fun k c at_ => ?_, ?_, fun k => ?_, ?_, ?_, ?_⟩
  · obtain ⟨r, root, parent⟩ := h.root
    by_cases same : 0 = id
    · subst same
      cases found.symm.trans root
      exact ⟨_, finished, parent⟩
    · exact ⟨r, (others same).trans root, parent⟩
  · by_cases same : k = id
    · subst same
      cases finished.symm.trans at_
      exact (show k ≠ 0 → ∃ p < k, b.parent = .branch p from h.older found)
    · exact h.older ((others same).symm.trans at_)
  · by_cases same : k = id
    · subst same
      cases finished.symm.trans at_
      simp [Branch.finish, unlooped]
    · exact h.looped ((others same).symm.trans at_)
  · by_cases same : k = id
    · subst same
      cases finished.symm.trans at_
      rfl
    · exact h.returned ((others same).symm.trans at_)
  · exact h.nodup.append (List.nodup_singleton id) fun k ended single =>
      running (List.mem_singleton.1 single ▸ ended)
  · by_cases same : k = id
    · subst same
      exact ⟨fun _ => ⟨_, finished, rfl⟩, fun _ => by simp⟩
    · rw [others same, ← h.ended k]
      simp [same]
  · intro k ended
    rw [forks]
    rcases List.mem_append.1 ended with ended | single
    · exact h.leaf k ended
    · exact List.mem_singleton.1 single ▸ childless
  · rintro k ⟨stand', other⟩
    obtain ⟨inside', running', childless'⟩ := h.standing k stand'
    refine ⟨(a.size_modify id _).symm ▸ inside', ?_, (forks k).not.2 childless'⟩
    simpa [running'] using other
  · intro k inside' moved running'
    rw [forks]
    have other : k ≠ id := fun same => running' (by simp [same])
    refine h.split k (a.size_modify id _ ▸ inside') (fun stand' => moved ⟨stand', other⟩) ?_
    exact fun ended => running' (List.mem_append.2 (.inl ended))

end Grows

theorem grows_root (scope : Scope) : Grows scope {0} [] (Arena.empty.root scope) := by
  have only {k : Nat} {b : Branch} (h : (Arena.empty.root scope).branch? k = some b) :
      k = 0 ∧ b = .fresh (.root scope) [] := by
    obtain rfl : k = 0 := Nat.lt_one_iff.1 (Arena.lt_size_of_branch? h)
    exact ⟨rfl, (Option.some.inj h).symm⟩
  have childless (k : Nat) : ¬ (Arena.empty.root scope).Forks k := by
    rintro ⟨j, b, found, parent⟩
    obtain ⟨-, rfl⟩ := only found
    cases parent
  refine ⟨⟨_, rfl, rfl⟩, fun k b found notRoot => absurd (only found).1 notRoot,
    fun k b found => ?_, fun k b found => ?_, List.nodup_nil, fun k => ⟨nofun, ?_⟩, nofun,
    fun k stand => ?_, fun k inside moved => ?_⟩
  · obtain ⟨-, rfl⟩ := only found
    exact ⟨nofun, nofun⟩
  · obtain ⟨-, rfl⟩ := only found
    rfl
  · rintro ⟨b, found, terminated⟩
    obtain ⟨-, rfl⟩ := only found
    cases terminated
  · obtain rfl : k = 0 := stand
    exact ⟨Nat.zero_lt_one, nofun, childless 0⟩
  · exact absurd (Nat.lt_one_iff.1 inside) moved

/-! ## Walks -/

section Walks

variable {invoke : Invoke} {steps : Array Step} {P : Context → Nat → Nat → State → Prop}
  {ctx : Context} {id index : Nat} {s s' : State} {task : Task} {next : Next} {ends : List Nat}
  {scope : Scope}

/-- A step changes neither where its branch comes from nor how it ends. -/
theorem step_marks (h : id < s.1.size)
    (given : Gives (step invoke ctx steps id index) s next s') :
    ∃ f, Marks f ∧ Goes ctx.options id (s.1.modify id f) s'.1 next := by
  obtain ⟨b, found⟩ := Arena.exists_branch h
  rcases step_cases found given with ⟨-, rfl, rfl⟩ |
    ⟨instruction, -, ⟨-, rfl, rfl⟩ | ⟨-, executed⟩⟩
  · exact ⟨_, marks_id, (s'.1.modify_id id).symm⟩
  · exact ⟨_, marks_id.visit _ index, rfl⟩
  · obtain ⟨s₁, ⟨f, hf, arena⟩, -, goes⟩ := (admits_bound invoke id).execute ctx index _ executed
    refine ⟨_, hf.marks.visit f index, ?_⟩
    rw [← Arena.modify_modify]
    exact arena ▸ goes

namespace Task

/-- Paths stand where the task begins. -/
def Awaits (stands : Set Nat) (ends : List Nat) (a : Arena) : Task → Prop
  | path _ id _ => id ∈ stands
  | all _ starts => (starts.map Prod.fst).Nodup ∧ ∀ start ∈ starts, start.1 ∈ stands
  | each _ id _ _ _ => id < a.size ∧ id ∉ ends

/-- Where paths still stand when the task is done. -/
def left (stands : Set Nat) : Task → Set Nat
  | path _ id _ => stands \ {id}
  | all _ starts => {id ∈ stands | id ∉ starts.map Prod.fst}
  | each _ _ _ [] _ => stands
  | each _ id _ (_ :: _) _ => stands \ {id}

end Task

/-- After a step its branch is still the only one on which the path stands, or its children are. -/
theorem step_grows {stands : Set Nat} {done : List Nat} (grows : Grows scope stands done s.1)
    (stand : id ∈ stands) (given : Gives (step invoke ctx steps id index) s next s')
    (goes : next.task? ctx id = some task) :
    ∃ stands', Grows scope stands' done s'.1 ∧ task.Awaits stands' done s'.1 ∧
      task.left stands' = stands \ {id} := by
  obtain ⟨inside, running, -⟩ := grows.standing id stand
  obtain ⟨f, marks, prepared⟩ := step_marks inside given
  replace grows := grows.modify marks id
  rw [← s.1.size_modify id f] at inside
  have old {k : Nat} (hk : k ∈ stands) : k < (s.1.modify id f).size := (grows.standing k hk).1
  generalize s.1.modify id f = a at prepared grows inside old
  generalize s'.1 = a' at prepared ⊢
  cases next with
  | next target =>
    cases goes
    obtain rfl : a' = a := prepared
    exact ⟨stands, grows, stand, rfl⟩
  | stop t v => cases goes
  | split starts =>
    cases goes
    obtain ⟨-, prepared⟩ := prepared
    have once := grows.child inside running
    cases mode : ctx.options.forkMode with
    | symmetric =>
      rw [mode] at prepared
      obtain ⟨rfl, i, j, rfl⟩ := prepared
      have inside' : id < (a.child id).size := by rw [Arena.size_child]; omega
      refine ⟨_, once.child inside' running, ?_, ?_⟩
      · rw [Arena.size_child]
        refine ⟨by simp, fun start hs => ?_⟩
        rcases List.mem_pair.1 hs with rfl | rfl
        · exact .inr ⟨.inl rfl, Nat.ne_of_gt inside⟩
        · exact .inl rfl
      · ext k
        have new := fun hk : k ∈ stands => old hk
        simp only [Task.left, Arena.size_child, Set.mem_insert_iff, Set.mem_sdiff,
          Set.mem_singleton_iff, Set.mem_ofPred_eq, List.map_cons, List.map_nil, List.mem_cons,
          List.not_mem_nil, or_false]
        constructor
        · rintro ⟨hk | ⟨hk | hk, -⟩, no⟩
          · exact absurd (.inr hk) no
          · exact absurd (.inl hk) no
          · exact hk
        · rintro ⟨hk, other⟩
          have := new hk
          exact ⟨.inr ⟨.inr ⟨hk, other⟩, other⟩, by omega⟩
    | fallthroughOnly =>
      rw [mode] at prepared
      obtain ⟨rfl, i, rfl⟩ := prepared
      refine ⟨_, once, ⟨List.nodup_singleton _, ?_⟩, ?_⟩
      · exact fun start hs => List.mem_singleton.1 hs ▸ .inl rfl
      · ext k
        simp only [Task.left, Set.mem_insert_iff, Set.mem_sdiff, Set.mem_singleton_iff,
          Set.mem_ofPred_eq, List.map_cons, List.map_nil, List.mem_singleton]
        constructor
        · rintro ⟨rfl | hk, no⟩
          · exact absurd rfl no
          · exact hk
        · exact fun hk => ⟨.inr hk, Nat.ne_of_lt (old hk.1)⟩
  | spread slot values target =>
    cases goes
    obtain ⟨rfl, several, -⟩ : a' = a ∧ _ := prepared
    refine ⟨stands, grows, ⟨inside, running⟩, ?_⟩
    cases values with
    | nil => cases several
    | cons v rest => rfl

theorem finish_grows {stands : Set Nat} {done : List Nat} {t : Termination} {v : Value} {u : Unit}
    (grows : Grows scope stands done s.1) (stand : id ∈ stands)
    (given : Gives (finish id t v) s u s') : Grows scope (stands \ {id}) (done ++ [id]) s'.1 := by
  obtain ⟨w, s₁, made, given⟩ := gives_bind_iff.1 given
  obtain ⟨rfl, -⟩ := gives_lift_iff.1 made
  obtain rfl := gives_modify_iff.1 given
  exact grows.finish stand t w

/-- A walk closes the branches on which it begins and all branches that it makes. -/
theorem Walks.grows (h : Walks invoke steps P task s ends s') {stands : Set Nat}
    {done : List Nat} (grows : Grows scope stands done s.1) (awaits : task.Awaits stands done s.1) :
    Grows scope (task.left stands) (done ++ ends) s'.1 := by
  induction h generalizing stands done with
  | onward _ given goes _ ih =>
    obtain ⟨stands', grows', awaits', left⟩ := step_grows grows awaits given goes
    exact (show _ = Task.left stands (.path _ _ _) from left) ▸ ih grows' awaits'
  | stop _ given finished =>
    obtain ⟨f, marks, arena⟩ := step_marks (grows.standing _ awaits).1 given
    exact finish_grows ((show _ = _ from arena) ▸ grows.modify marks _) awaits finished
  | allNil => simpa [Task.left] using grows
  | @allCons ctx id index starts s s₁ s' ends more _ _ ihFirst ihRest =>
    obtain ⟨apart, begin⟩ := awaits
    obtain ⟨notLater, apart⟩ := List.nodup_cons.1 apart
    have first := ihFirst grows (begin _ List.mem_cons_self)
    have rest := ihRest first ⟨apart, fun start hs => by
      refine ⟨begin start (List.mem_cons_of_mem _ hs), fun same => notLater ?_⟩
      exact List.mem_map.2 ⟨start, hs, same⟩⟩
    rw [List.append_assoc] at rest
    convert rest using 1
    ext k
    simp only [Task.left, Set.mem_ofPred_eq, Set.mem_sdiff, Set.mem_singleton_iff, List.map_cons,
      List.mem_cons, not_or]
    exact and_assoc.symm
  | eachNil => simpa [Task.left] using grows
  | @eachCons ctx id index slot v values s s₁ s₂ s' ends more bound walks _ ihFirst ihRest =>
    obtain ⟨inside, running⟩ := awaits
    obtain ⟨f, hf, arena⟩ := bindSlot_bound bound
    have made : Grows scope (insert s.1.size (stands \ {id})) done s₁.1 :=
      arena ▸ (grows.child inside running).modify hf.marks _
    have first := ihFirst made (.inl rfl)
    have same : (Task.path (ctx.await values) s.1.size index).left
        (insert s.1.size (stands \ {id})) = stands \ {id} := by
      refine Set.insert_sdiff_self_of_notMem fun stand => ?_
      exact Nat.lt_irrefl _ (grows.standing _ stand.1).1
    rw [same] at first
    have size := size_of_bound bound
    obtain ⟨framed, belong⟩ := walks.framed (show s.1.size < s₁.1.size by omega)
    have inside' : id < s₂.1.size :=
      Nat.lt_of_lt_of_le (Nat.lt_trans inside (size ▸ Nat.lt_succ_self _)) framed.grows
    have running' : id ∉ done ++ ends := fun ended => by
      rcases List.mem_append.1 ended with ended | ended
      · exact running ended
      · rcases (belong id ended).2 with mine | new
        · exact Nat.ne_of_lt inside (List.mem_singleton.1 mine)
        · omega
    have rest := ihRest first ⟨inside', running'⟩
    rw [List.append_assoc] at rest
    cases values with
    | nil => exact rest
    | cons w values => simpa [Task.left] using rest

end Walks

/-! ## Resolutions -/

/-- The ends of a resolution are its leaves, and these are where something is returned; every branch
comes from an earlier one, and in the end from the one root. -/
structure Resolution.Bears (r : Resolution) (scope : Scope) : Prop where
  nonempty : r.terminals ≠ []
  nodup : r.terminals.Nodup
  inside : ∀ id ∈ r.terminals, id < r.arena.size
  leaf : ∀ id < r.arena.size, (id ∈ r.terminals ↔ ¬ r.arena.Forks id)
  terminated : ∀ id b, r.arena.branch? id = some b →
    (id ∈ r.terminals ↔ b.termination.isSome = true)
  returned : ∀ id b, r.arena.branch? id = some b → (id ∈ r.terminals ↔ b.returned.isSome = true)
  looped : ∀ id b, r.arena.branch? id = some b →
    (b.looped = true ↔ b.termination = some .loopCutoff)
  older : ∀ id b p, r.arena.branch? id = some b → b.parent = .branch p → p < id
  root : ∀ id b other, r.arena.branch? id = some b →
    (b.parent = .root other ↔ id = 0 ∧ other = scope)
  lineage : ∀ id < r.arena.size, r.arena.scope id = scope ∧
    (r.arena.lineage id).length ≤ id + 1 ∧ ∃ path root, r.arena.lineage id = path ++ [root] ∧
      r.arena.branch? 0 = some root ∧ ∀ b ∈ path, ∃ p, b.parent = .branch p

namespace Grows

variable {scope : Scope} {stands : Set Nat} {ends : List Nat} {a : Arena}

/-- A lineage goes back to the root. -/
theorem lineage (h : Grows scope stands ends a) {id : Nat} (inside : id < a.size) :
    (a.lineage id).length ≤ id + 1 ∧ ∃ path root, a.lineage id = path ++ [root] ∧
      a.branch? 0 = some root ∧ ∀ b ∈ path, ∃ p, b.parent = .branch p := by
  induction id using Nat.strongRecOn with
  | _ id ih =>
    obtain ⟨b, found⟩ := Arena.exists_branch inside
    by_cases first : id = 0
    · subst first
      obtain ⟨r, root, parent⟩ := h.root
      have whole : a.lineage 0 = [r] := by
        rw [Arena.lineage, show a.branches[0]? = some r from root]
        simp only [parent]
      exact ⟨by rw [whole]; exact Nat.le_refl 1, [], r, whole, root, List.forall_mem_nil _⟩
    · obtain ⟨p, older, parent⟩ := h.older found first
      have whole := Arena.lineage_of_parent found parent older
      obtain ⟨short, path, root, back, atRoot, onward⟩ := ih p older (Nat.lt_trans older inside)
      refine ⟨by rw [whole, List.length_cons]; omega, b :: path, root, ?_, atRoot, ?_⟩
      · rw [whole, back, List.cons_append]
      · intro c hc
        rcases List.mem_cons.1 hc with rfl | hc
        · exact ⟨p, parent⟩
        · exact onward c hc

theorem scope_eq (h : Grows scope stands ends a) {id : Nat} (inside : id < a.size) :
    a.scope id = scope := by
  obtain ⟨-, path, root, back, atRoot, onward⟩ := h.lineage inside
  obtain ⟨r, found, parent⟩ := h.root
  obtain rfl : root = r := Option.some.inj (atRoot.symm.trans found)
  simp only [Arena.scope, back, List.filterMap_append]
  rw [List.filterMap_eq_nil_iff.2 fun b hb => ?_, List.nil_append,
    List.filterMap_cons_some (b := scope) (by rw [parent])]
  · rfl
  · obtain ⟨p, parent⟩ := onward b hb
    rw [parent]

/-- A tree on which no path stands any more ends in its leaves. -/
theorem bears (h : Grows scope ∅ ends a) (code : Code) :
    Resolution.Bears ⟨a, ends, code⟩ scope := by
  have leaf (id : Nat) (inside : id < a.size) : id ∈ ends ↔ ¬ a.Forks id :=
    ⟨h.leaf id, fun childless => by_contra fun running =>
      childless (h.split id inside (Set.notMem_empty id) running)⟩
  have terminated (id : Nat) (b : Branch) (found : a.branch? id = some b) :
      id ∈ ends ↔ b.termination.isSome = true := by
    rw [h.ended id, found]
    simp
  obtain ⟨r, root, parent⟩ := h.root
  refine ⟨fun none_ended => ?_, h.nodup, fun id => h.lt_of_ended, leaf, terminated,
    fun id b found => ?_, fun id b found => h.looped found, fun id b p found => h.lt_of_forks found,
    fun id b other found => ?_, fun id inside => ⟨h.scope_eq inside, h.lineage inside⟩⟩
  · -- Nothing comes from the branch that was made last.
    have some_branch : 0 < a.size := Arena.lt_size_of_branch? root
    obtain ⟨k, b, found, parent⟩ := h.split (a.size - 1) (by omega) (Set.notMem_empty _)
      ((show ends = [] from none_ended) ▸ List.not_mem_nil)
    have younger := h.lt_of_forks found parent
    have inside := Arena.lt_size_of_branch? found
    omega
  · rw [terminated id b found, h.returned found]
  · constructor
    · intro atRoot
      have first : id = 0 := by_contra fun notFirst => by
        obtain ⟨p, -, parent'⟩ := h.older found notFirst
        cases parent'.symm.trans atRoot
      subst first
      cases root.symm.trans found
      exact ⟨rfl, (Parent.root.inj (parent.symm.trans atRoot)).symm⟩
    · rintro ⟨rfl, rfl⟩
      cases root.symm.trans found
      exact parent

end Grows

theorem resolve_bears (invoke : Invoke) (ctx : Context) (code : Code) (scope : Scope)
    (locals : List (String × Value)) (m : Memory) :
    ((Analysis.resolve invoke ctx code scope locals).run m).1.Bears scope := by
  obtain ⟨s, ends, s', opened, walks, resolved⟩ := resolve_walks invoke ctx code scope locals m
  obtain ⟨f, hf, arena⟩ := openRoot_bound opened
  have planted : Grows scope {0} [] s.1 := arena ▸ (grows_root scope).modify hf.marks 0
  have grown := walks.grows planted (Set.mem_singleton 0)
  rw [show (Task.path ctx 0 0).left {0} = ∅ from Set.sdiff_self] at grown
  rw [resolved]
  exact grown.bears code

/-! ## Queries -/

/-- The code that is kept of a body is that of the body. -/
def Memory.Faithful (t : SymbolTable) (m : Memory) : Prop :=
  ∀ id kept, Assoc.find? m.bodies id = some kept → kept = (t.method id).decl.toCode.toOption

namespace Analysis

theorem body_of_faithful {t : SymbolTable} {m : Memory} (faithful : m.Faithful t) (id : Nat) :
    ((body t id).run m).1 = (t.method id).decl.toCode.toOption := by
  cases kept : Assoc.find? m.bodies id with
  | some code => rw [body_of_kept kept]; exact faithful id code kept
  | none =>
    simp only [body, StateT.run_bind, StateT.run_get, pure_bind, kept]
    cases (t.method id).decl.toCode <;> rfl

theorem bodies_body {t : SymbolTable} {m : Memory} {id : Nat}
    (h : Assoc.find? m.bodies id = none) :
    ((body t id).run m).2.bodies =
      Assoc.insert m.bodies id (t.method id).decl.toCode.toOption := by
  simp only [body, StateT.run_bind, StateT.run_get, pure_bind, h]
  cases (t.method id).decl.toCode <;> rfl

theorem faithful_body {t : SymbolTable} {m : Memory} (h : m.Faithful t) (id : Nat) :
    ((body t id).run m).2.Faithful t := by
  cases kept : Assoc.find? m.bodies id with
  | some code => rw [body_of_kept kept]; exact h
  | none =>
    intro other code found
    rw [bodies_body kept] at found
    by_cases mine : id = other
    · rw [mine, Assoc.find?_insert_self] at found
      exact (Option.some.inj found).symm
    · rw [Assoc.find?_insert_of_ne _ _ mine] at found
      exact h other code found

/-- Code that is made is kept beside what is remembered otherwise. -/
theorem body_keeps (t : SymbolTable) (id : Nat) (m : Memory) :
    ((body t id).run m).2.results = m.results ∧ ((body t id).run m).2.cutoffs = m.cutoffs := by
  cases kept : Assoc.find? m.bodies id with
  | some code => rw [body_of_kept kept]; exact ⟨rfl, rfl⟩
  | none =>
    simp only [body, StateT.run_bind, StateT.run_get, pure_bind, kept]
    cases (t.method id).decl.toCode <;> exact ⟨rfl, rfl⟩

/-- The resolution of a method is that of its code. -/
theorem resolveMethod_of_code {ctx : Context} {id : Nat} {m m' : Memory} {code : Code}
    (h : (body ctx.symbols id).run m = (some code, m')) :
    (resolveMethod ctx id).run m =
      let scope : Scope := ⟨some id, (ctx.symbols.method id).owner⟩
      let call := m'.push (openCall ctx.symbols id)
      let done := (resolve (calls ctx call) ctx code scope (ctx.symbols.scopeVariables scope)).run
        call
      (done.1, done.2.pop) := by
  rw [resolveMethod, run_bind_of_eq h]
  rfl

/-- The ends of the resolution of a method are its leaves, if its body has code. -/
theorem resolveMethod_bears {ctx : Context} {m : Memory} (faithful : m.Faithful ctx.symbols)
    {id : Nat} {code : Code} (lowers : (ctx.symbols.method id).decl.toCode = .ok code) :
    ((resolveMethod ctx id).run m).1.Bears ⟨some id, (ctx.symbols.method id).owner⟩ := by
  have known := body_of_faithful faithful id
  rw [lowers] at known
  rcases out : (body ctx.symbols id).run m with ⟨code?, m'⟩
  rw [out] at known
  obtain rfl : code? = some code := known
  rw [resolveMethod_of_code out]
  dsimp only
  exact resolve_bears _ ctx code _ _ _

/-- Whatever the code and its jumps, the limits and the mode are, and for a method whose body has
code: the ends of the resolution are its leaves. -/
theorem queries_bear (ctx : Context) (m : Memory) :
    (∀ code scope, ((resolveCode ctx code scope).run m).1.Bears scope) ∧
      ∀ id code, m.Faithful ctx.symbols → (ctx.symbols.method id).decl.toCode = .ok code →
        ((resolveMethod ctx id).run m).1.Bears ⟨some id, (ctx.symbols.method id).owner⟩ := by
  refine ⟨fun code scope => ?_, fun id code faithful lowers => resolveMethod_bears faithful lowers⟩
  rw [resolveCode, run_bind_of_eq (x := get) rfl]
  exact resolve_bears _ ctx code scope _ m

/-- `while c { if c { return c } }`, as the only function of a module. -/
def seeking : SymbolTable :=
  let c := Expr.name .absent "c"
  let body := [Stmt.loop .absent c [.cond .absent c [.ret .absent (some c)] none]]
  ⟨[⟨"seeking", none, [⟨"c", .boolean, none, false⟩], none,
    ⟨"seeking", .absent, [⟨"c", .absent, none, none, false⟩], none, body, .absent⟩⟩], [], [],
    [("seeking", .method 0)]⟩

theorem queries_bear_seeking :
    let ctx := Context.outer seeking .standard
    let r := ((resolveMethod ctx 0).run .empty).1
    Memory.empty.Faithful ctx.symbols ∧ (∃ code, (ctx.symbols.method 0).decl.toCode = .ok code) ∧
      r.Bears ⟨some 0, none⟩ ∧ r.arena.size = 5 ∧ r.terminals = [3, 4, 2] := by
  have faithful : Memory.empty.Faithful seeking := nofun
  exact ⟨faithful, ⟨_, rfl⟩, (queries_bear (.outer seeking .standard) .empty).2 0 _ faithful rfl,
    by decide +kernel, by decide +kernel⟩

end Analysis

end PathTyping
