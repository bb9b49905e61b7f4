import PathTyping.Proofs.Following
import Mathlib.Logic.Relation

/-!
# What a path leaves alone

One arena serves a whole resolution, and a walk is handed all of it.  Yet a path writes to the
branch on which it stands and to no other.  Where it splits, that branch is done with, and what
comes after is written to branches that descend from it.  So one side of a fork learns nothing of
the other, and what was bound before the fork stays as it was.

1. Branches that a walk adds are grafted onto those on which it begins or onto one another
   (`Walks.grafts`), so all that come of one path descend from its branch (`Grafts.descends`).
2. No path stands on a branch that has been split (`Leads.unsplit`), so a branch that has been
   split is as it will be in the end (`Leads.settled`).
3. A path keeps to its own branch, and so does each path that comes of it
   (`paths_keep_to_branch`).
-/

namespace PathTyping

open Walk

/-! ## Descent -/

namespace Arena

variable {a : Arena} {id j k p q n : Nat} {f : Branch → Branch}

/-- Branch `k` comes from branch `p`. -/
def ComesFrom (a : Arena) (k p : Nat) : Prop := ∃ b, a.branch? k = some b ∧ b.parent = .branch p

/-- Branch `k` comes from branch `p`, over any number of branches between them. -/
def Descends (a : Arena) : Nat → Nat → Prop := Relation.TransGen a.ComesFrom

/-- Something comes from branch `k` that was made when there were `n` branches or more. -/
def SplitSince (n : Nat) (a : Arena) (k : Nat) : Prop := ∃ j ≥ n, a.ComesFrom j k

/-- Behind the first `n` branches, each comes from an older one. -/
def Layered (n : Nat) (a : Arena) : Prop := ∀ k ≥ n, k < a.size → ∃ p < k, a.ComesFrom k p

theorem ComesFrom.lt (h : a.ComesFrom k p) : k < a.size :=
  h.elim fun _ hb => lt_size_of_branch? hb.1

theorem ComesFrom.unique (h : a.ComesFrom k p) (h' : a.ComesFrom k q) : p = q := by
  obtain ⟨b, found, parent⟩ := h
  obtain ⟨b', found', parent'⟩ := h'
  cases found.symm.trans found'
  exact Parent.branch.inj (parent.symm.trans parent')

theorem comesFrom_modify (keeps : ∀ b, (f b).parent = b.parent) :
    (a.modify id f).ComesFrom k p ↔ a.ComesFrom k p := by
  unfold ComesFrom
  rw [branch?_modify]
  split
  · simp [keeps]
  · exact Iff.rfl

theorem comesFrom_child : (a.child id).ComesFrom k p ↔ a.ComesFrom k p ∨ k = a.size ∧ p = id := by
  constructor
  · rintro ⟨b, found, parent⟩
    rcases branch?_of_child found with old | ⟨new, rfl⟩
    · exact .inl ⟨b, old, parent⟩
    · exact .inr ⟨new, (Parent.branch.inj parent).symm⟩
  · rintro (⟨b, found, parent⟩ | ⟨rfl, rfl⟩)
    · exact ⟨b, (branch?_child_of_lt a id (lt_size_of_branch? found)).trans found, parent⟩
    · exact ⟨_, branch?_child_size a p, rfl⟩

theorem splitSince_modify (keeps : ∀ b, (f b).parent = b.parent) :
    (a.modify id f).SplitSince n k ↔ a.SplitSince n k := by
  simp only [SplitSince, comesFrom_modify keeps]

theorem SplitSince.of_child (h : (a.child id).SplitSince n k) : a.SplitSince n k ∨ k = id := by
  obtain ⟨j, late, comes⟩ := h
  exact (comesFrom_child.1 comes).imp (fun old => ⟨j, late, old⟩) And.right

theorem Layered.lt (h : a.Layered n) (split : a.SplitSince n k) : k < a.size := by
  obtain ⟨j, late, comes⟩ := split
  obtain ⟨p, older, comes'⟩ := h j late comes.lt
  exact comes.unique comes' ▸ Nat.lt_trans older comes.lt

end Arena

/-! ## Grafts -/

/-- Branches are added, each behind one of `origins` or behind another that is added; all others
come from where they came from. -/
structure Grafts (origins : List Nat) (a a' : Arena) : Prop where
  grows : a.size ≤ a'.size
  parents : ∀ k b, a.branch? k = some b → ∃ b', a'.branch? k = some b' ∧ b'.parent = b.parent
  stems : ∀ k, a.size ≤ k → k < a'.size →
    ∃ p < k, (p ∈ origins ∨ a.size ≤ p) ∧ a'.ComesFrom k p

section Grafts

variable {origins others : List Nat} {a a₁ a' : Arena} {id k p n : Nat} {f : Branch → Branch}

theorem grafts_refl (origins : List Nat) (a : Arena) : Grafts origins a a where
  grows := Nat.le_refl _
  parents _ b found := ⟨b, found, rfl⟩
  stems _ new inside := absurd inside (Nat.not_lt.2 new)

theorem grafts_modify (origins : List Nat) (a : Arena) (id : Nat)
    (keeps : ∀ b, (f b).parent = b.parent) : Grafts origins a (a.modify id f) where
  grows := (a.size_modify id f).ge
  parents k b found := by
    rw [Arena.branch?_modify, found]
    split
    · exact ⟨f b, rfl, keeps b⟩
    · exact ⟨b, rfl, rfl⟩
  stems k new inside := by
    rw [Arena.size_modify] at inside
    exact absurd inside (Nat.not_lt.2 new)

theorem grafts_child (mine : id ∈ origins) (inside : id < a.size) :
    Grafts origins a (a.child id) where
  grows := a.size_child id ▸ Nat.le_succ _
  parents k b found :=
    ⟨b, (a.branch?_child_of_lt id (Arena.lt_size_of_branch? found)).trans found, rfl⟩
  stems k new inside' := by
    obtain rfl : k = a.size := by rw [Arena.size_child] at inside'; omega
    exact ⟨id, inside, .inl mine, Arena.comesFrom_child.2 (.inr ⟨rfl, rfl⟩)⟩

theorem Grafts.comesFrom (h : Grafts origins a a') (comes : a.ComesFrom k p) :
    a'.ComesFrom k p := by
  obtain ⟨b, found, parent⟩ := comes
  obtain ⟨b', found', same⟩ := h.parents k b found
  exact ⟨b', found', same.trans parent⟩

/-- What is grafted onto the origins or onto new branches comes of the origins. -/
theorem Grafts.andThen (h : Grafts origins a a₁) (h' : Grafts others a₁ a')
    (behind : ∀ p ∈ others, p ∈ origins ∨ a.size ≤ p) : Grafts origins a a' where
  grows := h.grows.trans h'.grows
  parents k b found := by
    obtain ⟨b₁, found₁, same₁⟩ := h.parents k b found
    obtain ⟨b', found', same'⟩ := h'.parents k b₁ found₁
    exact ⟨b', found', same'.trans same₁⟩
  stems k new inside := by
    by_cases old : k < a₁.size
    · obtain ⟨p, older, stem, comes⟩ := h.stems k new old
      exact ⟨p, older, stem, h'.comesFrom comes⟩
    · obtain ⟨p, older, stem, comes⟩ := h'.stems k (Nat.le_of_not_lt old) inside
      exact ⟨p, older, stem.elim (behind p) fun late => .inr (h.grows.trans late), comes⟩

/-- A branch that something has come from since is one of those of the origins or a new one, or
something had come from it already. -/
theorem Grafts.split (h : Grafts origins a a') (split : a'.SplitSince n k) :
    a.SplitSince n k ∨ k ∈ origins ∨ a.size ≤ k := by
  obtain ⟨j, late, comes⟩ := split
  by_cases old : j < a.size
  · obtain ⟨b, found⟩ := Arena.exists_branch old
    obtain ⟨b', found', same⟩ := h.parents j b found
    obtain ⟨c, found'', parent⟩ := comes
    cases found'.symm.trans found''
    exact .inl ⟨j, late, b, found, same.symm.trans parent⟩
  · obtain ⟨p, -, stem, comes'⟩ := h.stems j (Nat.le_of_not_lt old) comes.lt
    exact .inr (comes.unique comes' ▸ stem)

theorem Grafts.splitSince (h : Grafts origins a a') (split : a.SplitSince n k) :
    a'.SplitSince n k :=
  split.imp fun _ hj => ⟨hj.1, h.comesFrom hj.2⟩

theorem Grafts.layered (h : Grafts origins a a') (layered : a.Layered n) : a'.Layered n := by
  intro k late inside
  by_cases old : k < a.size
  · obtain ⟨p, older, comes⟩ := layered k late old
    exact ⟨p, older, h.comesFrom comes⟩
  · obtain ⟨p, older, -, comes⟩ := h.stems k (Nat.le_of_not_lt old) inside
    exact ⟨p, older, comes⟩

/-- All branches that come of one descend from it. -/
theorem Grafts.descends (h : Grafts [id] a a') (new : a.size ≤ k) (inside : k < a'.size) :
    a'.Descends k id := by
  induction k using Nat.strongRecOn with
  | _ k ih =>
    obtain ⟨p, older, origin | late, comes⟩ := h.stems k new inside
    · exact .single (List.mem_singleton.1 origin ▸ comes)
    · exact .head comes (ih p older late (Nat.lt_trans older inside))

end Grafts

/-! ## Where a walk adds branches -/

/-- The branches behind which the task adds others. -/
def Task.origins : Task → List Nat
  | path _ id _ => [id]
  | all _ starts => starts.map Prod.fst
  | each _ id _ _ _ => [id]

section Walks

variable {invoke : Invoke} {steps : Array Step} {P : Context → Nat → Nat → State → Prop}
  {ctx : Context} {id index n : Nat} {s s' s₁ : State} {task task' : Task} {next : Next}
  {ends : List Nat}

/-- A step adds branches behind its own, and leads to a task there. -/
theorem step_grafts (stands : id < s.1.size)
    (done : Gives (step invoke ctx steps id index) s next s') :
    Grafts [id] s.1 s'.1 ∧ ∀ task, next.task? ctx id = some task →
      ∀ p ∈ task.origins, p ∈ [id] ∨ s.1.size ≤ p := by
  obtain ⟨f, marks, goes⟩ := step_marks stands done
  have marked : Grafts [id] s.1 (s.1.modify id f) := grafts_modify _ _ _ marks.parent
  rw [← s.1.size_modify id f] at stands ⊢
  generalize s.1.modify id f = a at marked goes stands ⊢
  generalize s'.1 = a' at goes ⊢
  have mine : id ∈ [id] := List.mem_singleton_self id
  have back (p : Nat) (hp : p ∈ [id]) : p ∈ [id] ∨ s.1.size ≤ p := .inl hp
  cases next with
  | next target =>
    obtain rfl : a' = a := goes
    exact ⟨marked, by rintro _ ⟨⟩; exact fun p hp => .inl hp⟩
  | stop t v =>
    obtain rfl : a' = a := goes
    exact ⟨marked, nofun⟩
  | split starts =>
    obtain ⟨-, goes⟩ := goes
    have once := grafts_child mine stands
    cases mode : ctx.options.forkMode with
    | symmetric =>
      rw [mode] at goes
      obtain ⟨rfl, i, j, rfl⟩ := goes
      have twice := grafts_child mine (Nat.lt_of_lt_of_le stands once.grows)
      refine ⟨(marked.andThen once back).andThen twice back, ?_⟩
      rintro _ ⟨⟩
      simp [Task.origins]
    | fallthroughOnly =>
      rw [mode] at goes
      obtain ⟨rfl, i, rfl⟩ := goes
      refine ⟨marked.andThen once back, ?_⟩
      rintro _ ⟨⟩
      simp [Task.origins]
  | spread slot values target =>
    obtain ⟨rfl, -⟩ : a' = a ∧ _ := goes
    exact ⟨marked, by rintro _ ⟨⟩; exact fun p hp => .inl hp⟩

/-- A walk adds branches behind those on which it begins, and behind those that it adds. -/
theorem Walks.grafts (h : Walks invoke steps P task s ends s') (stands : task.Stands s.1) :
    Grafts task.origins s.1 s'.1 := by
  induction h with
  | onward _ done goes _ ih =>
    obtain ⟨grafts, behind⟩ := step_grafts stands done
    exact grafts.andThen (ih ((step_framed stands done).2 _ goes).1) (behind _ goes)
  | stop _ done finished =>
    obtain ⟨w, s₂, made, finished⟩ := gives_bind_iff.1 finished
    obtain ⟨rfl, -⟩ := gives_lift_iff.1 made
    obtain rfl := gives_modify_iff.1 finished
    exact (step_grafts stands done).1.andThen (grafts_modify [] _ _ fun _ => rfl) nofun
  | allNil => exact grafts_refl _ _
  | allCons _ _ ihFirst ihRest =>
    have first := ihFirst (stands _ List.mem_cons_self)
    have rest := ihRest (Task.Stands.rest stands first.grows)
    refine ((grafts_refl _ _).andThen first fun p hp => .inl ?_).andThen rest fun p hp => .inl ?_
    · exact List.mem_singleton.1 hp ▸ List.mem_cons_self
    · exact List.mem_cons_of_mem _ hp
  | eachNil => exact grafts_refl _ _
  | @eachCons ctx id index slot v values s s₁ s₂ s' ends more bound _ _ ihFirst ihRest =>
    obtain ⟨f, hf, arena⟩ := bindSlot_bound bound
    have size := size_of_bound bound
    have made : Grafts [id] s.1 s₁.1 := arena ▸
      (grafts_child (List.mem_singleton_self id) stands).andThen
        (grafts_modify [] _ _ hf.parent) nofun
    have first := made.andThen (ihFirst (show s.1.size < s₁.1.size by omega))
      fun p hp => .inr (List.mem_singleton.1 hp).ge
    exact first.andThen (ihRest (Nat.lt_of_lt_of_le stands first.grows)) fun p hp => .inl hp

/-! ## Branches that have been split -/

/-- Paths stand on branches that have not been split since there were `n`. -/
structure Task.Unsplit (n : Nat) (a : Arena) (task : Task) : Prop where
  layered : a.Layered n
  stands : task.Stands a
  nodup : task.branches.Nodup
  unsplit : ∀ k ∈ task.branches, ¬ a.SplitSince n k

theorem Task.Unsplit.first {starts : List (Nat × Nat)}
    (h : (Task.all ctx ((id, index) :: starts)).Unsplit n s.1) :
    (Task.path ctx id index).Unsplit n s.1 where
  layered := h.layered
  stands := h.stands _ List.mem_cons_self
  nodup := List.nodup_singleton id
  unsplit k hk := h.unsplit k (List.mem_singleton.1 hk ▸ List.mem_cons_self)

/-- A path leaves alone the branches on which others wait. -/
theorem Task.Unsplit.rest {starts : List (Nat × Nat)}
    (h : (Task.all ctx ((id, index) :: starts)).Unsplit n s.1)
    (walks : Walks invoke steps P (.path ctx id index) s ends s') :
    (Task.all ctx starts).Unsplit n s'.1 where
  layered := (walks.grafts h.first.stands).layered h.layered
  stands := Task.Stands.rest h.stands (walks.grafts h.first.stands).grows
  nodup := (List.nodup_cons.1 h.nodup).2
  unsplit k hk split := by
    have waits : k ∈ (Task.all ctx ((id, index) :: starts)).branches := List.mem_cons_of_mem _ hk
    rcases (walks.grafts h.first.stands).split split with before | mine | new
    · exact h.unsplit k waits before
    · exact (List.nodup_cons.1 h.nodup).1 (List.mem_singleton.1 mine ▸ hk)
    · obtain ⟨start, there, rfl⟩ := List.mem_map.1 hk
      exact Nat.not_lt.2 new (h.stands start (List.mem_cons_of_mem _ there))

/-- Each result of a call gets a branch that nothing comes from. -/
theorem Task.Unsplit.eachFirst {slot : Slot} {v : Value} {values : List Value}
    (h : (Task.each ctx id slot (v :: values) index).Unsplit n s.1)
    (bound : Gives (bindSlot s.1.size slot v) (s.1.child id, s.2) () s₁) :
    (Task.path (ctx.await values) s.1.size index).Unsplit n s₁.1 := by
  obtain ⟨f, hf, arena⟩ := bindSlot_bound bound
  have size := size_of_bound bound
  have made : Grafts [id] s.1 s₁.1 := arena ▸
    (grafts_child (List.mem_singleton_self id) h.stands).andThen
      (grafts_modify [] _ _ hf.parent) nofun
  refine ⟨made.layered h.layered, show s.1.size < s₁.1.size by omega, List.nodup_singleton _, ?_⟩
  intro k hk split
  obtain rfl := List.mem_singleton.1 hk
  rw [arena, Arena.splitSince_modify hf.parent] at split
  rcases split.of_child with before | same
  · exact Nat.lt_irrefl _ (h.layered.lt before)
  · exact Nat.ne_of_gt h.stands same

theorem Task.Unsplit.eachLater {slot : Slot} {v : Value} {values : List Value}
    (h : (Task.each ctx id slot (v :: values) index).Unsplit n s.1)
    (bound : Gives (bindSlot s.1.size slot v) (s.1.child id, s.2) () s₁)
    (walks : Walks invoke steps P (.path (ctx.await values) s.1.size index) s₁ ends s') :
    (Task.each ctx id slot values index).Unsplit n s'.1 := by
  have begun := h.eachFirst bound
  have grafts := walks.grafts begun.stands
  have size := size_of_bound bound
  refine ⟨grafts.layered begun.layered, ?_, List.nodup_nil, nofun⟩
  exact Nat.lt_of_lt_of_le (Nat.lt_trans h.stands (by omega)) grafts.grows

/-- A path goes on where nothing has come from yet. -/
theorem step_unsplit (h : (Task.path ctx id index).Unsplit n s.1)
    (done : Gives (step invoke ctx steps id index) s next s')
    (goes : next.task? ctx id = some task) : task.Unsplit n s'.1 := by
  have stands' := ((step_framed h.stands done).2 _ goes).1
  have layered' := (step_grafts h.stands done).1.layered h.layered
  obtain ⟨f, marks, prepared⟩ := step_marks h.stands done
  have unsplit : ¬ (s.1.modify id f).SplitSince n id := fun split =>
    h.unsplit id (List.mem_singleton_self id) ((Arena.splitSince_modify marks.parent).1 split)
  have layered : (s.1.modify id f).Layered n :=
    (grafts_modify [] _ _ marks.parent).layered h.layered
  have inside : id < (s.1.modify id f).size := by rw [Arena.size_modify]; exact h.stands
  generalize s.1.modify id f = a at prepared unsplit layered inside
  generalize s'.1 = a' at prepared stands' layered'
  cases next with
  | next target =>
    cases goes
    obtain rfl : a' = a := prepared
    refine ⟨layered', stands', List.nodup_singleton id, ?_⟩
    intro k hk
    exact List.mem_singleton.1 hk ▸ unsplit
  | stop t v => cases goes
  | split starts =>
    cases goes
    -- What has been split is older than the branches that are added.
    have fresh {a₁ : Arena} (layered : a₁.Layered n) (inside : id < a₁.size) {k : Nat}
        (new : a₁.size ≤ k) : ¬ (a₁.child id).SplitSince n k := fun split =>
      split.of_child.elim (fun before => Nat.not_lt.2 new (layered.lt before)) fun same => by omega
    obtain ⟨-, prepared⟩ := prepared
    cases mode : ctx.options.forkMode with
    | symmetric =>
      rw [mode] at prepared
      obtain ⟨rfl, i, j, rfl⟩ := prepared
      refine ⟨layered', stands', by simp [Task.branches], fun k hk split => ?_⟩
      have new : a.size ≤ k := by
        rcases List.mem_pair.1 hk with rfl | rfl
        · exact Nat.le_refl _
        · exact Nat.le_succ _
      rcases split.of_child with before | same
      · exact fresh layered inside new before
      · omega
    | fallthroughOnly =>
      rw [mode] at prepared
      obtain ⟨rfl, i, rfl⟩ := prepared
      exact ⟨layered', stands', List.nodup_singleton _, fun k hk =>
        fresh layered inside (List.mem_singleton.1 hk).ge⟩
  | spread slot values target =>
    cases goes
    exact ⟨layered', stands', List.nodup_nil, List.forall_mem_nil _⟩

/-- Wherever a walk comes to, it stands on branches that have not been split. -/
theorem Leads.unsplit (leads : Leads invoke steps task s task' s₁) (h : task.Unsplit n s.1) :
    task'.Unsplit n s₁.1 := by
  induction leads with
  | here => exact h
  | onward done goes _ ih => exact ih (step_unsplit h done goes)
  | first _ ih => exact ih h.first
  | later before _ ih => exact ih (h.rest before)
  | eachFirst bound _ ih => exact ih (h.eachFirst bound)
  | eachLater bound before _ ih => exact ih (h.eachLater bound before)

/-- A walk leaves alone what has been split. -/
theorem Walks.settled (walks : Walks invoke steps P task s ends s') (h : task.Unsplit n s.1)
    {k : Nat} (split : s.1.SplitSince n k) :
    s'.1.SplitSince n k ∧ s'.1.branch? k = s.1.branch? k :=
  ⟨(walks.grafts h.stands).splitSince split, (walks.framed h.stands).1.others k
    (h.layered.lt split) fun mine => h.unsplit k mine split⟩

/-- Wherever a walk comes to, what has been split is as it is in the end. -/
theorem Leads.settled (leads : Leads invoke steps task s task' s₁)
    (walks : Walks invoke steps P task s ends s') (h : task.Unsplit n s.1) {k : Nat}
    (split : s₁.1.SplitSince n k) : s'.1.SplitSince n k ∧ s'.1.branch? k = s₁.1.branch? k := by
  induction leads generalizing ends s' with
  | here => exact walks.settled h split
  | onward done goes _ ih =>
    cases walks with
    | onward _ done' goes' walks =>
      obtain ⟨rfl, rfl⟩ := done.unique done'
      cases goes.symm.trans goes'
      exact ih walks (step_unsplit h done goes) split
    | stop _ done' _ => cases (done.unique done').1; cases goes
  | first _ ih =>
    cases walks with
    | allCons walks later =>
      obtain ⟨split', same⟩ := ih walks h.first split
      exact (later.settled (h.rest walks) split').imp_right (·.trans same)
  | later before _ ih =>
    cases walks with
    | allCons walks later =>
      obtain ⟨-, rfl⟩ := before.unique walks
      exact ih later (h.rest walks) split
  | eachFirst bound _ ih =>
    cases walks with
    | eachCons bound' walks later =>
      obtain ⟨-, rfl⟩ := bound.unique bound'
      obtain ⟨split', same⟩ := ih walks (h.eachFirst bound) split
      exact (later.settled (h.eachLater bound walks) split').imp_right (·.trans same)
  | eachLater bound before _ ih =>
    cases walks with
    | eachCons bound' walks later =>
      obtain ⟨-, rfl⟩ := bound.unique bound'
      obtain ⟨-, rfl⟩ := before.unique walks
      exact ih later (h.eachLater bound walks) split

/-! ## Paths -/

/-- Of the branches that were there, `id` alone is changed; each comes from where it came from,
and those that are added descend from `id`. -/
structure KeepsTo (id : Nat) (a a' : Arena) : Prop where
  grows : a.size ≤ a'.size
  others : ∀ k < a.size, k ≠ id → a'.branch? k = a.branch? k
  parents : ∀ k b, a.branch? k = some b → ∃ b', a'.branch? k = some b' ∧ b'.parent = b.parent
  added : ∀ k, a.size ≤ k → k < a'.size → a'.Descends k id

theorem Walks.keepsTo (walks : Walks invoke steps P (.path ctx id index) s ends s')
    (inside : id < s.1.size) : KeepsTo id s.1 s'.1 where
  grows := (walks.grafts inside).grows
  others k old other := (walks.framed inside).1.others k old fun mine =>
    other (List.mem_singleton.1 mine)
  parents := (walks.grafts inside).parents
  added _ new := (walks.grafts inside).descends new

end Walks

/-- However calls are followed, a walk of a path changes no branch that was there but its own,
leaves where each comes from, and adds branches that descend from its own.  Wherever it comes to
on its way, whatever it has split is as it will be in the end; a path that goes on there stands on
a branch that has not been split, changes this branch alone before it ends on it or adds others
behind it, and keeps to it as the whole walk keeps to its own. -/
theorem paths_keep_to_branch (invoke : Invoke) (ctx : Context) (code : Code) (a : Arena)
    (m : Memory) {id : Nat} (start : Nat) (inside : id < a.size) :
    let steps := code.steps.toArray
    ∃ ends s', Gives (paths invoke ctx code id start) (a, m) ends s' ∧ KeepsTo id a s'.1 ∧
      ∀ task s, Leads invoke steps (.path ctx id start) (a, m) task s →
        (∀ k, s.1.SplitSince a.size k → s'.1.branch? k = s.1.branch? k) ∧
          ∀ ctx' k index, task = .path ctx' k index →
            ¬ s.1.SplitSince a.size k ∧
              (∀ next s₁, Gives (step invoke ctx' steps k index) s next s₁ →
                ∃ f, Marks f ∧ Goes ctx.options k (s.1.modify k f) s₁.1 next ∧
                  ∀ t v s₂, next = .stop t v → Gives (finish k t v) s₁ () s₂ →
                    Apart k s₁.1 s₂.1) ∧
              ∃ others s₁, Walks invoke steps (fun _ _ _ _ => True) task s others s₁ ∧
                KeepsTo k s.1 s₁.1 := by
  intro steps
  obtain ⟨b, found⟩ := Arena.exists_branch inside
  have few : b.unseen steps.size < code.size + 1 := by
    refine Nat.lt_succ_of_le ((Finset.card_filter_le _ _).trans ?_)
    rw [Finset.card_range, List.size_toArray]
    exact Nat.le_refl _
  have fits : (Task.path ctx id start).Fits steps.size (code.size + 1) a := ⟨b, found, few⟩
  obtain ⟨ends, s', given, walks⟩ : Derives invoke steps (code.size + 1) _ (a, m) :=
    derives_of_fits fits
  have unsplit : (Task.path ctx id start).Unsplit a.size a := by
    refine ⟨fun k late old => absurd old (Nat.not_lt.2 late), inside, List.nodup_singleton id, ?_⟩
    rintro k - ⟨j, late, comes⟩
    exact Nat.not_lt.2 late comes.lt
  refine ⟨ends, s', given, walks.keepsTo inside, fun task s leads => ?_⟩
  have here := leads.unsplit unsplit
  refine ⟨fun k split => (leads.settled walks unsplit split).2, ?_⟩
  rintro ctx' k index rfl
  refine ⟨here.unsplit k (List.mem_singleton_self k), fun next s₁ done => ?_, ?_⟩
  · obtain ⟨f, marks, goes⟩ := step_marks here.stands done
    have options : ctx'.options = ctx.options := leads.context.2
    exact ⟨f, marks, options ▸ goes, fun t v s₂ _ finished => finish_apart finished⟩
  · obtain ⟨others, s₁, rest⟩ := leads.walks walks
    exact ⟨others, s₁, rest, rest.keepsTo here.stands⟩

/-! ### A path beside another -/

/-- Two branches that come from one root. -/
def siblings : Arena := ((Arena.empty.root .module).child 0).child 0

/-- Code that binds a variable and then splits its path. -/
def bindingCode : Code :=
  .ofInstrs [.const 0 (.boolean true), .store "x" 0, .gotoIf 4 0 false, .ret (some 0), .ret none]

/-- A path on the first of two siblings ends on branches that descend from it and see what it has
bound; the other sees nothing of it. -/
theorem paths_keep_to_branch_sibling :
    1 < siblings.size ∧ ∃ s', Gives
        (paths (Analysis.invoke 0) (.outer default .standard) bindingCode 1 0) (siblings, .empty)
        [3, 4] s' ∧
      KeepsTo 1 siblings s'.1 ∧ s'.1.branch? 2 = siblings.branch? 2 ∧ s'.1.Descends 4 1 ∧
        (s'.1.lookupVariable 4 "x").isSome = true ∧ s'.1.lookupVariable 2 "x" = none := by
  have inside : 1 < siblings.size := by decide
  let x := paths (Analysis.invoke 0) (.outer default .standard) bindingCode 1 0
  obtain ⟨ends, s', given, keeps, -⟩ :=
    paths_keep_to_branch (Analysis.invoke 0) (.outer default .standard) bindingCode siblings .empty
      0 inside
  obtain ⟨rfl, rfl⟩ := given.unique (gives_outcome x (siblings, .empty))
  have ended : (outcome x (siblings, .empty)).1 = [3, 4] := by decide +kernel
  have size : (outcome x (siblings, .empty)).2.1.size = 5 := by decide +kernel
  refine ⟨inside, _, ended ▸ given, keeps, keeps.others 2 (by decide) (by decide), ?_, ?_, ?_⟩
  · exact keeps.added 4 (by decide) (by rw [size]; decide)
  · decide +kernel
  · rw [← Option.isNone_iff_eq_none]
    decide +kernel

end PathTyping
