import PathTyping.Proofs.Frames
import PathTyping.Proofs.Operands

/-!
# Slots that are written once

A value may be put into its slot on any branch, and it is seen on all branches that come of that
one.  Where one instruction alone writes a slot, a path executes it once at most; what else is put
into the slot is the value itself with one more property, so the type stays.

1. `Arena.Once`: what has a type in the slot has executed the instruction, and what comes of it sees
   the same.  A change of a branch keeps to that where it changes no type, or where nothing is seen
   in the slot and nothing has come of the branch (`Arena.Once.modify`).
2. An instruction puts its result into its slot or leaves that to new branches, and no type changes
   in other slots (`execute_leaves`).
3. So a walk writes the slot where nothing has been seen in it, and takes nothing away
   (`step_once`, `Walks.once`).  Wherever it comes to, what is seen goes on to be seen (`Leads.once`).
4. What a path executes comes to be seen (`Walks.binds`).
-/

namespace PathTyping

open Walk

/-! ## What is seen in a slot -/

namespace Arena

variable {a a' a'' : Arena} {id k p i n : Nat} {slot other : Slot} {b : Branch}
  {f : Branch → Branch} {T : Ty} {E : Prop}

/-- The type of what a branch sees in a slot. -/
def seen (a : Arena) (id : Nat) (slot : Slot) : Option Ty :=
  (a.lookupSlot id slot).map Value.type

theorem seen_of_none (h : a.branch? k = none) : a.seen k slot = none := by
  rw [seen, lookupSlot, lineage, show a.branches[k]? = none from h]
  rfl

theorem lt_size_of_seen (h : a.seen k slot = some T) : k < a.size := by
  by_contra outside
  cases (seen_of_none (branch?_eq_none_iff.2 (Nat.le_of_not_lt outside))).symm.trans h

theorem seen_of_parent (found : a.branch? k = some b) (parent : b.parent = .branch p)
    (older : p < k) :
    a.seen k slot = ((Assoc.find? b.slots slot).map Value.type).or (a.seen p slot) := by
  rw [seen, lookupSlot_eq (lineage_of_parent found parent older), Option.map_or]
  rfl

theorem lineage_of_alone (found : a.branch? k = some b)
    (alone : ¬ ∃ p < k, b.parent = .branch p) : a.lineage k = [b] := by
  rw [lineage, show a.branches[k]? = some b from found]
  dsimp only
  split
  · rfl
  · next p comes => exact if_neg fun older => alone ⟨p, older, comes⟩

theorem seen_of_alone (found : a.branch? k = some b)
    (alone : ¬ ∃ p < k, b.parent = .branch p) :
    a.seen k slot = (Assoc.find? b.slots slot).map Value.type := by
  rw [seen, lookupSlot_eq (lineage_of_alone found alone), List.findSome?_nil, Option.or_none]

/-- What is changed on a branch is a matter of that branch and of what comes of it. -/
theorem seen_modify_of_ne (ne : k ≠ id)
    (behind : a.Forks id → (a.modify id f).seen id slot = a.seen id slot) :
    (a.modify id f).seen k slot = a.seen k slot := by
  induction k using Nat.strongRecOn with
  | _ k ih =>
    have same := a.branch?_modify_of_ne f ne.symm
    cases found : a.branch? k with
    | none => rw [seen_of_none found, seen_of_none (same.trans found)]
    | some b =>
      by_cases older : ∃ p < k, b.parent = .branch p
      · obtain ⟨p, older, comes⟩ := older
        rw [seen_of_parent found comes older, seen_of_parent (same.trans found) comes older]
        by_cases mine : p = id
        · subst mine
          rw [behind ⟨k, b, found, comes⟩]
        · rw [ih p older mine]
      · rw [seen_of_alone found older, seen_of_alone (same.trans found) older]

theorem seen_modify_self (found : a.branch? id = some b) (parent : (f b).parent = b.parent)
    (slots : (Assoc.find? (f b).slots slot).map Value.type =
      (Assoc.find? b.slots slot).map Value.type) :
    (a.modify id f).seen id slot = a.seen id slot := by
  obtain ⟨rest, lineage⟩ := lineage_eq_cons found
  rw [seen, seen, lookupSlot_eq lineage, lookupSlot_eq (lineage_modify parent found lineage),
    Option.map_or, Option.map_or, slots]

/-- What is put into a slot is seen there, and in all others what was seen before. -/
theorem seen_modify_insert (found : a.branch? id = some b) (parent : (f b).parent = b.parent)
    {v : Value} (slots : (f b).slots = Assoc.insert b.slots slot v) :
    (a.modify id f).seen id other = if slot = other then some v.type else a.seen id other := by
  split
  · next same =>
    subst same
    obtain ⟨rest, lineage⟩ := lineage_eq_cons found
    rw [seen, lookupSlot_eq (lineage_modify parent found lineage), slots, Assoc.find?_insert_self]
    rfl
  · next ne =>
    refine seen_modify_self found parent ?_
    rw [slots, Assoc.find?_insert_of_ne _ _ ne]

theorem lookupSlot_child_of_lt (inside : k < a.size) :
    (a.child id).lookupSlot k slot = a.lookupSlot k slot :=
  lookupSlot_of_older (fun _ hj => a.branch?_child_of_lt id (Nat.lt_of_le_of_lt hj inside)) slot

theorem seen_child_of_lt (inside : k < a.size) : (a.child id).seen k slot = a.seen k slot := by
  rw [seen, seen, lookupSlot_child_of_lt inside]

/-- A new branch sees what the one sees that it comes from. -/
theorem seen_child_size (inside : id < a.size) :
    (a.child id).seen a.size slot = a.seen id slot := by
  rw [seen_of_parent (a.branch?_child_size id) rfl inside, seen_child_of_lt inside]
  rfl

/-! ### Slots that are written once -/

/-- Instruction `i` is the one that writes the slot: what has a type there has executed it, so that
`E` is the case; and what comes of a branch that has a type there sees the same. -/
structure Once (slot : Slot) (i : Nat) (E : Prop) (a : Arena) : Prop where
  older : ∀ k p, a.ComesFrom k p → p < k
  came : ∀ k b, a.branch? k = some b → (a.seen k slot).isSome = true → b.visits i ≠ 0 ∧ E
  inherits : ∀ k p T, a.ComesFrom k p → a.seen p slot = some T → a.seen k slot = some T

/-- Branch `id` has reached instruction `i`, and nothing is seen there in the slot yet. -/
structure Awaits (slot : Slot) (i : Nat) (E : Prop) (a : Arena) (id : Nat) : Prop where
  unseen : a.seen id slot = none
  holds : E
  reached : ∃ b, a.branch? id = some b ∧ b.visits i ≠ 0

/-- Wherever a type was seen in the slot, it still is. -/
def Retains (slot : Slot) (a a' : Arena) : Prop :=
  ∀ k T, a.seen k slot = some T → a'.seen k slot = some T

theorem Retains.trans (h : a.Retains slot a') (h' : a'.Retains slot a'') : a.Retains slot a'' :=
  fun k T there => h' k T (h k T there)

theorem retains_refl (slot : Slot) (a : Arena) : a.Retains slot a := fun _ _ there => there

/-- A branch may be changed where the type stays, or where the slot awaits a value and nothing has
come of the branch. -/
theorem Once.modify (h : a.Once slot i E) (parent : ∀ b, (f b).parent = b.parent)
    (visits : ∀ b, b.visits i ≠ 0 → (f b).visits i ≠ 0)
    (change : (a.modify id f).seen id slot = a.seen id slot ∨
      a.Awaits slot i E id ∧ ¬ a.Forks id) :
    (a.modify id f).Once slot i E ∧ a.Retains slot (a.modify id f) := by
  have others {k : Nat} (ne : k ≠ id) : (a.modify id f).seen k slot = a.seen k slot :=
    seen_modify_of_ne ne fun forks => change.resolve_right fun new => new.2 forks
  have retains : a.Retains slot (a.modify id f) := by
    intro k T there
    by_cases mine : k = id
    · subst mine
      rcases change with same | ⟨awaits, -⟩
      · exact same.trans there
      · cases awaits.unseen.symm.trans there
    · exact (others mine).trans there
  refine ⟨⟨?_, ?_, ?_⟩, retains⟩
  · intro k p comes
    exact h.older k p ((comesFrom_modify parent).1 comes)
  · intro k b found there
    by_cases mine : k = id
    · subst mine
      rw [branch?_modify, if_pos rfl] at found
      obtain ⟨b', found', rfl⟩ := Option.map_eq_some_iff.1 found
      obtain ⟨reached, holds⟩ : b'.visits i ≠ 0 ∧ E := by
        rcases change with same | ⟨⟨-, holds, c, mine, reached⟩, -⟩
        · exact h.came k b' found' (same ▸ there)
        · cases found'.symm.trans mine
          exact ⟨reached, holds⟩
      exact ⟨visits b' reached, holds⟩
    · rw [branch?_modify_of_ne a f (Ne.symm mine)] at found
      exact h.came k b found (others mine ▸ there)
  · intro k p T comes there
    rw [comesFrom_modify parent] at comes
    have before : a.seen p slot = some T := by
      by_cases mine : p = id
      · subst mine
        rcases change with same | ⟨-, unforked⟩
        · exact same.symm.trans there
        · exact absurd ⟨k, comes⟩ unforked
      · exact (others mine).symm.trans there
    exact retains k T (h.inherits k p T comes before)

theorem Once.child (h : a.Once slot i E) (inside : id < a.size) :
    (a.child id).Once slot i E ∧ a.Retains slot (a.child id) := by
  have old {k : Nat} (hk : k < a.size) : (a.child id).seen k slot = a.seen k slot :=
    seen_child_of_lt hk
  have retains : a.Retains slot (a.child id) := by
    intro k T there
    refine (old (Nat.lt_of_not_le fun outside => ?_)).trans there
    cases (seen_of_none (branch?_eq_none_iff.2 outside)).symm.trans there
  refine ⟨⟨?_, ?_, ?_⟩, retains⟩
  · intro k p comes
    rcases comesFrom_child.1 comes with before | ⟨rfl, rfl⟩
    · exact h.older k p before
    · exact inside
  · intro k b found there
    rcases branch?_of_child found with before | ⟨rfl, rfl⟩
    · exact h.came k b before (old (lt_size_of_branch? before) ▸ there)
    · obtain ⟨b, mine⟩ := exists_branch inside
      rw [seen_child_size inside] at there
      obtain ⟨came, holds⟩ := h.came id b mine there
      rw [mine]
      exact ⟨came, holds⟩
  · intro k p T comes there
    rcases comesFrom_child.1 comes with before | ⟨rfl, rfl⟩
    · have younger := before.lt
      rw [old ((h.older k p before).trans younger)] at there
      exact (old younger).trans (h.inherits k p T before there)
    · rw [old inside] at there
      exact (seen_child_size inside).trans there

/-- What a branch awaits, a new branch behind it awaits. -/
theorem Awaits.child (h : a.Awaits slot i E id) : (a.child id).Awaits slot i E a.size := by
  obtain ⟨b, there, reached⟩ := h.reached
  refine ⟨(seen_child_size (lt_size_of_branch? there)).trans h.unseen, h.holds, _,
    a.branch?_child_size id, ?_⟩
  rw [there]
  exact reached

/-- Nothing has come of a new branch. -/
theorem Once.childless (h : a.Once slot i E) (inside : id < a.size) :
    ¬ (a.child id).Forks a.size := by
  rintro ⟨j, comes⟩
  rcases comesFrom_child.1 comes with old | ⟨-, same⟩
  · exact Nat.lt_asymm (h.older j a.size old) old.lt
  · exact Nat.ne_of_gt inside same

theorem Once.unforked (h : a.Once slot i E) (unsplit : ¬ a.SplitSince 1 id) : ¬ a.Forks id := by
  rintro ⟨j, comes⟩
  exact unsplit ⟨j, Nat.one_le_of_lt (h.older j id comes), comes⟩

end Arena

/-! ## What a step changes -/

namespace Walk

variable {α β : Type} {id index : Nat} {s s' s₁ : State}

/-- No type is changed that branch `id` sees in a slot, and no branch is added. -/
structure Alike (id : Nat) (s s' : State) : Prop where
  size : s'.1.size = s.1.size
  types : s'.1.seen id = s.1.seen id

/-- However `x` goes, it changes no type that branch `id` sees. -/
def LeavesTypes (id : Nat) (x : Walk α) : Prop := ∀ ⦃s v s'⦄, Gives x s v s' → Alike id s s'

section LeavesTypes

theorem alike_of_eq (h : s'.1 = s.1) : Alike id s s' := ⟨by rw [h], by rw [h]⟩

theorem Alike.trans (h : Alike id s s₁) (h' : Alike id s₁ s') : Alike id s s' :=
  ⟨h'.size.trans h.size, h'.types.trans h.types⟩

theorem alike_modify {f : Branch → Branch} {m : Memory} (parent : ∀ b, (f b).parent = b.parent)
    (slots : ∀ b, (f b).slots = b.slots) : Alike id s (s.1.modify id f, m) where
  size := Arena.size_modify _ _ _
  types := by
    funext slot
    cases found : s.1.branch? id with
    | none =>
      have none_there : (s.1.modify id f).branch? id = none := by
        rw [Arena.branch?_modify, if_pos rfl, found]
        rfl
      rw [Arena.seen_of_none found, Arena.seen_of_none none_there]
    | some b => exact Arena.seen_modify_self found (parent b) (by rw [slots])

theorem overlooks_alike (id : Nat) : Overlooks (Alike id) := ⟨alike_of_eq, Alike.trans⟩

theorem types_bindVariable (name : String) (v : Value) :
    LeavesTypes id (bindVariable id name v) :=
  (overlooks_alike id).seq ((overlooks_alike id).lifts _) fun _ _ _ _ given => by
    obtain rfl := gives_modify_iff.1 given
    exact alike_modify (fun _ => rfl) fun _ => rfl

/-- Putting a value into a slot changes no type but the one that is seen there. -/
theorem seen_bindSlot {slot other : Slot} {v : Value} {u : Unit} (inside : id < s.1.size)
    (given : Gives (bindSlot id slot v) s u s') :
    s'.1.seen id other = if slot = other then some v.type else s.1.seen id other := by
  obtain ⟨w, s₁, made, given⟩ := gives_bind_iff.1 given
  obtain ⟨rfl, rfl⟩ := gives_lift_iff.1 made
  obtain rfl := gives_modify_iff.1 given
  obtain ⟨b, found⟩ := Arena.exists_branch inside
  rw [Arena.seen_modify_insert (f := (·.bindSlot slot _)) found rfl rfl]
  congr 2
  exact v.place_type _

/-- The value with one more property is of the type that was seen before. -/
theorem alike_loadMember {ctx : Context} {span : Span} {slot : Slot} {name : String} {v : Value}
    (there : id < s.1.size) (sees : (s.1.lookupSlot id slot).isSome = true)
    (given : Gives (loadMember ctx id span slot name) s v s') : Alike id s s' := by
  obtain ⟨target, s₁, read, rest⟩ := gives_bind_iff.1 given
  obtain ⟨a, s₂, got, read⟩ := gives_bind_iff.1 read
  obtain ⟨rfl, rfl⟩ := gives_get_iff.1 got
  obtain ⟨held, found⟩ := Option.isSome_iff_exists.1 sees
  rw [found] at read
  obtain ⟨rfl, rfl⟩ := gives_pure_iff.1 read
  split at rest
  · exact (overlooks_alike id).returns _ rest
  · split at rest
    · exact (overlooks_alike id).lifts _ rest
    · obtain ⟨p, s₂, made, rest⟩ := gives_bind_iff.1 rest
      obtain ⟨rfl, -⟩ := gives_lift_iff.1 made
      obtain ⟨_, s₃, rebound, rest⟩ := gives_bind_iff.1 rest
      obtain ⟨-, rfl⟩ := gives_pure_iff.1 rest
      obtain ⟨w, s₄, placed, rebound⟩ := gives_bind_iff.1 rebound
      obtain ⟨rfl, rfl⟩ := gives_lift_iff.1 placed
      obtain rfl := gives_modify_iff.1 rebound
      refine ⟨Arena.size_modify _ _ _, ?_⟩
      obtain ⟨b, mine⟩ := Arena.exists_branch there
      funext other
      rw [Arena.seen_modify_insert (f := (·.rebindSlot slot _)) mine rfl rfl]
      split
      · next same =>
        subst same
        rw [Arena.seen, found]
        exact congrArg some (((target.copy.setProperty name p).place_type _).trans target.copy_type)
      · rfl

end LeavesTypes

/-- What an instruction leaves on its branch: its result, if the path goes on there, and everything
else as it was.  Where new branches are to get the result, it has not changed anything. -/
structure Leaves (result? : Option Slot) (id : Nat) (s s' : State) (next : Next) : Prop where
  others : ∀ slot, result? ≠ some slot → s'.1.seen id slot = s.1.seen id slot
  result : ∀ slot, result? = some slot →
    (∃ target, next = .next target) ∧ (s'.1.seen id slot).isSome = true ∨
      (∃ values target, next = .spread slot values target) ∧
        s'.1.seen id slot = s.1.seen id slot
  spread : ∀ slot values target, next = .spread slot values target → result? = some slot

/-- However `x` goes, it leaves that much. -/
def LeavesResult (result? : Option Slot) (id : Nat) (x : Walk Next) : Prop :=
  ∀ ⦃s next s'⦄, id < s.1.size → Gives x s next s' → Leaves result? id s s' next

section LeavesResult

variable {result? : Option Slot} {result : Slot}

theorem Alike.leaves {next : Next} (h : Alike id s s₁) (h' : Leaves result? id s₁ s' next) :
    Leaves result? id s s' next where
  others slot other := (h'.others slot other).trans (congrFun h.types slot)
  result slot mine := (h'.result slot mine).imp_right
    fun spread => ⟨spread.1, spread.2.trans (congrFun h.types slot)⟩
  spread := h'.spread

theorem LeavesTypes.before {x : Walk α} {f : α → Walk Next} (hx : LeavesTypes id x)
    (hf : ∀ v, LeavesResult result? id (f v)) : LeavesResult result? id (x >>= f) := by
  intro s next s' inside given
  obtain ⟨v, s₁, first, rest⟩ := gives_bind_iff.1 given
  have same := hx first
  exact same.leaves (hf v (same.size.symm ▸ inside) rest)

theorem leaves_pure {next : Next}
    (alone : ∀ slot values target, next ≠ .spread slot values target) :
    LeavesResult none id (pure next) := by
  intro s _ s' inside given
  obtain ⟨rfl, rfl⟩ := gives_pure_iff.1 given
  exact ⟨fun _ _ => rfl, nofun, fun slot values target same => absurd same (alone _ _ _)⟩

theorem leaves_bind (v : Value) (target : Nat) : LeavesResult (some result) id (do
    bindSlot id result v
    return .next target) := by
  intro s next s' inside given
  obtain ⟨_, s₁, bound, rest⟩ := gives_bind_iff.1 given
  obtain ⟨rfl, rfl⟩ := gives_pure_iff.1 rest
  refine ⟨?_, ?_, nofun⟩
  · intro slot other
    rw [seen_bindSlot inside bound, if_neg fun same => other (congrArg some same)]
  · rintro slot ⟨⟩
    refine .inl ⟨⟨target, rfl⟩, ?_⟩
    rw [seen_bindSlot inside bound, if_pos rfl]
    rfl

theorem leaves_continueWith (values : List Value) (target : Nat) :
    LeavesResult (some result) id (continueWith id result values target) := by
  unfold continueWith
  split
  · exact leaves_bind _ _
  · exact leaves_bind _ _
  · intro s next s' inside given
    obtain ⟨rfl, rfl⟩ := gives_pure_iff.1 given
    refine ⟨fun _ _ => rfl, ?_, ?_⟩
    · rintro slot ⟨⟩
      exact .inr ⟨⟨_, _, rfl⟩, rfl⟩
    · rintro slot values target ⟨⟩
      rfl

theorem leaves_fork (options : AnalysisOptions) (target index : Nat) :
    LeavesResult none id (fork options id target index) := by
  intro s next s' inside given
  obtain ⟨a, s₁, got, rest⟩ := gives_bind_iff.1 given
  obtain ⟨rfl, rfl⟩ := gives_get_iff.1 got
  have once (slot : Slot) : (s₁.1.child id).seen id slot = s₁.1.seen id slot :=
    Arena.seen_child_of_lt inside
  split at rest
  · exact leaves_pure (by nofun) inside rest
  · split at rest
    · obtain ⟨fall, s₂, made, rest⟩ := gives_bind_iff.1 rest
      obtain ⟨-, rfl⟩ := gives_child_iff.1 made
      obtain ⟨taken, s₃, made, rest⟩ := gives_bind_iff.1 rest
      obtain ⟨-, rfl⟩ := gives_child_iff.1 made
      obtain ⟨rfl, rfl⟩ := gives_pure_iff.1 rest
      refine ⟨fun slot _ => ?_, nofun, nofun⟩
      exact (Arena.seen_child_of_lt (by rw [Arena.size_child]; omega)).trans (once slot)
    · obtain ⟨fall, s₂, made, rest⟩ := gives_bind_iff.1 rest
      obtain ⟨-, rfl⟩ := gives_child_iff.1 made
      obtain ⟨rfl, rfl⟩ := gives_pure_iff.1 rest
      exact ⟨fun slot _ => once slot, nofun, nofun⟩

/-- An instruction puts its result into its slot, or leaves that to new branches; the types in all
other slots stay. -/
theorem execute_leaves {t : SymbolTable} {invoke : Invoke} {steps : List Step} {ctx : Context}
    {step : Step} {next : Next} (supplied : Supplied steps) (found : steps[index]? = some step)
    (ready : State.Ready t steps id index s)
    (done : Gives (execute invoke ctx id index step) s next s') :
    Leaves step.instr.result? id s s' next := by
  obtain ⟨instr, span⟩ := step
  have inside := ready.there
  have untouched := overlooks_alike id
  have reads {result? : Option Slot} (x : Slot) {f : Value → Walk Next}
      (hf : ∀ v, LeavesResult result? id (f v)) :
      LeavesResult result? id (operand id span x >>= f) :=
    LeavesTypes.before (untouched.operand id span x) hf
  cases instr with
  | const result l => exact leaves_bind _ _ inside done
  | unary result op x => exact reads x (fun _ => leaves_bind _ _) inside done
  | binary result x op y =>
    exact reads x (fun _ => reads y fun _ => leaves_bind _ _) inside done
  | goto target => exact leaves_pure (by nofun) inside done
  | gotoIf target condition expected =>
    exact reads condition (fun _ => leaves_fork _ _ _) inside done
  | call result callee arguments =>
    exact LeavesTypes.before (untouched.results _ _ _ _ _ _)
      (fun _ => LeavesTypes.before untouched.looks fun _ => leaves_continueWith _ _) inside done
  | load result name =>
    exact LeavesTypes.before (untouched.load _ _ _ _) (fun _ => leaves_bind _ _) inside done
  | member result target name =>
    obtain ⟨i, carried⟩ := supplied index _ found target List.mem_cons_self
    obtain ⟨v, s₁, loaded, rest⟩ := gives_bind_iff.1 done
    have same := alike_loadMember inside (ready.sees i target carried) loaded
    exact same.leaves (leaves_bind v _ (same.size.symm ▸ inside) rest)
  | index result target key =>
    exact reads target (fun _ => reads key fun _ =>
      LeavesTypes.before (untouched.lifts _) fun _ => leaves_bind _ _) inside done
  | store name value =>
    exact reads value (fun _ => (types_bindVariable _ _).before fun _ =>
      leaves_pure (by nofun)) inside done
  | ret value =>
    cases value with
    | some x => exact reads x (fun _ => leaves_pure (by nofun)) inside done
    | none =>
      exact LeavesTypes.before (untouched.latest id) (fun _ => leaves_pure (by nofun)) inside done

end LeavesResult

end Walk

/-! ## Single assignment -/

theorem Branch.visits_visit_ne_zero {b : Branch} {i : Nat} (index : Nat) (h : b.visits i ≠ 0) :
    (b.visit index).visits i ≠ 0 := by
  by_cases same : index = i
  · rw [same, visits_visit_self]
    omega
  · rwa [visits_visit_of_ne b same]

/-- A path is about to take a step: it finds its operands, nothing has come of its branch, and if
the step executes instruction `i`, then `E` is the case. -/
structure Poised (t : SymbolTable) (steps : List Step) (i : Nat) (E : Prop) (id index : Nat)
    (s : State) : Prop where
  ready : State.Ready t steps id index s
  unsplit : ¬ s.1.SplitSince 1 id
  executes : index = i → (s.1.visit id i).1 = true → E

theorem Walk.Binds.visits {f : Branch → Branch} (hf : Binds f) (b : Branch) (i : Nat) :
    (f b).visits i = b.visits i := by
  rw [Branch.visits, Branch.visits, hf.visited]

theorem Arena.Once.bind {a : Arena} {slot : Slot} {i id : Nat} {E : Prop} {f : Branch → Branch}
    (h : a.Once slot i E) (hf : Binds f)
    (change : (a.modify id f).seen id slot = a.seen id slot ∨
      a.Awaits slot i E id ∧ ¬ a.Forks id) :
    (a.modify id f).Once slot i E ∧ a.Retains slot (a.modify id f) :=
  h.modify hf.parent (fun b reached => (hf.visits b i).trans_ne reached) change

section Once

variable {t : SymbolTable} {invoke : Invoke} {steps : List Step} {ctx : Context}
  {id index i : Nat} {s s' s₁ : State} {next : Next} {slot : Slot} {E : Prop} {a a' : Arena}
  {task task' : Task} {ends : List Nat}

/-- Where a path goes on, it sees what it has seen on its branch. -/
theorem goes_seen {options : AnalysisOptions} (inside : id < a.size)
    (goes : Goes options id a a' next) : a'.seen id slot = a.seen id slot := by
  cases next with
  | next target => exact congrArg (Arena.seen · id slot) goes
  | stop t v => exact congrArg (Arena.seen · id slot) goes
  | spread slot values target => exact congrArg (Arena.seen · id _) goes.1
  | split starts =>
    obtain ⟨-, goes⟩ := goes
    have once : (a.child id).seen id slot = a.seen id slot := Arena.seen_child_of_lt inside
    split at goes
    · obtain ⟨rfl, -⟩ := goes
      exact (Arena.seen_child_of_lt (by rw [Arena.size_child]; omega)).trans once
    · obtain ⟨rfl, -⟩ := goes
      exact once

theorem goes_once {options : AnalysisOptions} (once : a.Once slot i E) (inside : id < a.size)
    (goes : Goes options id a a' next) : a'.Once slot i E ∧ a.Retains slot a' := by
  have same (h : a' = a) : a'.Once slot i E ∧ a.Retains slot a' := by
    subst h
    exact ⟨once, Arena.retains_refl slot a'⟩
  cases next with
  | next target => exact same goes
  | stop t v => exact same goes
  | spread slot values target => exact same goes.1
  | split starts =>
    obtain ⟨-, goes⟩ := goes
    obtain ⟨once₁, retains₁⟩ := once.child inside
    split at goes
    · obtain ⟨rfl, -⟩ := goes
      have inside₁ : id < (a.child id).size := by
        rw [Arena.size_child]
        omega
      obtain ⟨once₂, retains₂⟩ := once₁.child inside₁
      exact ⟨once₂, retains₁.trans retains₂⟩
    · obtain ⟨rfl, -⟩ := goes
      exact ⟨once₁, retains₁⟩

/-- An instruction takes nothing away, and writes the slot if that awaits a value and nothing has
come of the branch. -/
theorem execute_once {step : Step} (once : s.1.Once slot i E) (inside : id < s.1.size)
    (fresh : step.instr.result? = some slot → s.1.Awaits slot i E id ∧ ¬ s.1.Forks id)
    (executed : Gives (execute invoke ctx id index step) s next s')
    (leaves : Leaves step.instr.result? id s s' next) :
    s'.1.Once slot i E ∧ s.1.Retains slot s'.1 ∧
      ∀ values target, next = .spread slot values target → s'.1.Awaits slot i E id := by
  obtain ⟨s₁, ⟨f, hf, arena⟩, -, goes⟩ :=
    (admits_bound invoke id).execute ctx index step executed
  rw [arena] at goes
  have inside₁ : id < (s.1.modify id f).size := by
    rw [Arena.size_modify]
    exact inside
  by_cases mine : step.instr.result? = some slot
  · obtain ⟨once₁, retains₁⟩ := once.bind hf (.inr (fresh mine))
    obtain ⟨once₂, retains₂⟩ := goes_once once₁ inside₁ goes
    obtain ⟨unseen, holds, b, there, reached⟩ := (fresh mine).1
    refine ⟨once₂, retains₁.trans retains₂, ?_⟩
    rintro values target rfl
    have still : s'.1.seen id slot = none := by
      rcases leaves.result slot mine with ⟨⟨_, ends⟩, -⟩ | ⟨-, same⟩
      · cases ends
      · exact same.trans unseen
    refine ⟨still, holds, f b, ?_, (hf.visits b i).trans_ne reached⟩
    rw [goes.1, Arena.branch?_modify, if_pos rfl, there]
    rfl
  · have same : (s.1.modify id f).seen id slot = s.1.seen id slot :=
      (goes_seen inside₁ goes).symm.trans (leaves.others slot mine)
    obtain ⟨once₁, retains₁⟩ := once.bind hf (.inl same)
    obtain ⟨once₂, retains₂⟩ := goes_once once₁ inside₁ goes
    refine ⟨once₂, retains₁.trans retains₂, ?_⟩
    rintro values target rfl
    exact absurd (leaves.spread slot values target rfl) mine

/-- A step takes nothing away, and writes the slot only where nothing has been seen in it. -/
theorem step_once (supplied : Supplied steps)
    (alone : ∀ k step, steps[k]? = some step → step.instr.result? = some slot → k = i)
    (poised : Poised t steps i E id index s) (once : s.1.Once slot i E)
    (done : Gives (step invoke ctx steps.toArray id index) s next s') :
    s'.1.Once slot i E ∧ s.1.Retains slot s'.1 ∧
      ∀ values target, next = .spread slot values target → s'.1.Awaits slot i E id := by
  obtain ⟨b, there⟩ := Arena.exists_branch poised.ready.there
  have reseen : (s.visit id index).1.seen id slot = s.1.seen id slot :=
    Arena.seen_modify_self there rfl rfl
  obtain ⟨visited, kept⟩ : (s.visit id index).1.Once slot i E ∧
      s.1.Retains slot (s.visit id index).1 :=
    once.modify (fun _ => rfl) (fun _ => Branch.visits_visit_ne_zero index) (.inl reseen)
  rcases step_cases there done with ⟨-, rfl, rfl⟩ |
    ⟨step, found, ⟨-, rfl, rfl⟩ | ⟨first, executed⟩⟩
  · exact ⟨once, Arena.retains_refl slot _, nofun⟩
  · exact ⟨visited, kept, nofun⟩
  · rw [List.getElem?_toArray] at found
    have leaves := execute_leaves supplied found poised.ready.visit executed
    -- The path comes to the instruction for the first time, so nothing is in the slot yet.
    have fresh (mine : step.instr.result? = some slot) :
        (s.visit id index).1.Awaits slot i E id ∧ ¬ (s.visit id index).1.Forks id := by
      obtain rfl := alone index step found mine
      have arrives : Gives (arrive id index) s (s.1.visit id index).1 (s.visit id index) := rfl
      have holds : E := poised.executes rfl <| by
        rw [(gives_arrive there arrives).1, first]
        rfl
      have unseen : s.1.seen id slot = none :=
        Option.not_isSome_iff_eq_none.1 fun seen => (once.came id b there seen).1 first
      have reached : (b.visit index).visits index ≠ 0 := by
        rw [Branch.visits_visit_self]
        omega
      have keeps (b : Branch) : (b.visit index).parent = b.parent := rfl
      refine ⟨⟨reseen.trans unseen, holds, b.visit index, ?_, reached⟩, ?_⟩
      · rw [State.visit, Arena.branch?_modify, if_pos rfl, there]
        rfl
      · exact visited.unforked fun split => poised.unsplit ((Arena.splitSince_modify keeps).1 split)
    obtain ⟨once', retains, awaits⟩ :=
      execute_once visited poised.ready.visit.there fresh executed leaves
    exact ⟨once', kept.trans retains, awaits⟩

/-! ## Walks -/

/-- Where the task begins, instruction `i` is the one that has written the slot; values that are
to be put there are awaited. -/
structure Task.Singly (slot : Slot) (i : Nat) (E : Prop) (a : Arena) (task : Task) : Prop where
  stands : task.Stands a
  once : a.Once slot i E
  awaits : ∀ ctx id values index, task = .each ctx id slot values index → a.Awaits slot i E id

theorem Task.Singly.first {starts : List (Nat × Nat)}
    (h : (Task.all ctx ((id, index) :: starts)).Singly slot i E a) :
    (Task.path ctx id index).Singly slot i E a :=
  ⟨h.stands _ List.mem_cons_self, h.once, nofun⟩

/-- Each value is put where nothing has been seen before, on a branch that nothing has come of. -/
theorem Task.Singly.eachFirst {values : List Value} {v : Value}
    (h : (Task.each ctx id other (v :: values) index).Singly slot i E s.1)
    (bound : Gives (bindSlot s.1.size other v) (s.1.child id, s.2) () s₁) :
    (Task.path (ctx.await values) s.1.size index).Singly slot i E s₁.1 ∧
      s.1.Retains slot s₁.1 := by
  have stands : id < s.1.size := h.stands
  have size := size_of_bound bound
  obtain ⟨once, retains⟩ := h.once.child stands
  have inside : s.1.size < (s.1.child id).size := by
    rw [Arena.size_child]
    omega
  have after : s₁.1.seen s.1.size slot =
      if other = slot then some v.type else (s.1.child id).seen s.1.size slot :=
    seen_bindSlot inside bound
  obtain ⟨f, hf, arena⟩ := bindSlot_bound bound
  have change : s₁.1.seen s.1.size slot = (s.1.child id).seen s.1.size slot ∨
      (s.1.child id).Awaits slot i E s.1.size ∧ ¬ (s.1.child id).Forks s.1.size := by
    by_cases mine : other = slot
    · subst mine
      exact .inr ⟨(h.awaits _ _ _ _ rfl).child, h.once.childless stands⟩
    · exact .inl (after.trans (if_neg mine))
  rw [arena] at change
  have done := once.bind hf change
  rw [← arena] at done
  exact ⟨⟨show s.1.size < s₁.1.size by omega, done.1, nofun⟩, retains.trans done.2⟩

section Walks

variable {P : Context → Nat → Nat → State → Prop}

/-- What is awaited on a branch is awaited there until the last value has got its own. -/
theorem Task.Singly.eachLater {values : List Value} {v : Value}
    (h : (Task.each ctx id other (v :: values) index).Singly slot i E s.1)
    (bound : Gives (bindSlot s.1.size other v) (s.1.child id, s.2) () s₁)
    (walks : Walks invoke steps.toArray P (.path (ctx.await values) s.1.size index) s₁ ends s')
    (once : s'.1.Once slot i E) :
    (Task.each ctx id other values index).Singly slot i E s'.1 := by
  have stands : id < s.1.size := h.stands
  have same (k : Nat) (hk : k ≤ id) : s'.1.branch? k = s.1.branch? k :=
    branch?_of_each bound walks (hk.trans_lt stands)
  obtain ⟨b, there⟩ := Arena.exists_branch stands
  refine ⟨Arena.lt_size_of_branch? ((same id (Nat.le_refl id)).trans there), once, ?_⟩
  rintro _ _ _ _ ⟨⟩
  obtain ⟨unseen, holds, b, there, reached⟩ := h.awaits _ _ _ _ rfl
  refine ⟨?_, holds, b, (same id (Nat.le_refl id)).trans there, reached⟩
  rw [Arena.seen, Arena.lookupSlot_of_older same]
  exact unseen

theorem step_singly (supplied : Supplied steps)
    (alone : ∀ k step, steps[k]? = some step → step.instr.result? = some slot → k = i)
    (poised : Poised t steps i E id index s)
    (h : (Task.path ctx id index).Singly slot i E s.1)
    (done : Gives (step invoke ctx steps.toArray id index) s next s')
    (goes : next.task? ctx id = some task) :
    task.Singly slot i E s'.1 ∧ s.1.Retains slot s'.1 := by
  obtain ⟨once, retains, awaits⟩ := step_once supplied alone poised h.once done
  refine ⟨⟨((step_framed h.stands done).2 _ goes).1, once, ?_⟩, retains⟩
  rintro _ _ values target rfl
  cases next <;> cases goes
  exact awaits values target rfl

theorem finish_once {termination : Termination} {v : Value} {u : Unit}
    (once : s.1.Once slot i E) (finished : Gives (finish id termination v) s u s') :
    s'.1.Once slot i E ∧ s.1.Retains slot s'.1 := by
  obtain ⟨w, s₁, made, finished⟩ := gives_bind_iff.1 finished
  obtain ⟨rfl, -⟩ := gives_lift_iff.1 made
  obtain rfl := gives_modify_iff.1 finished
  have types : (s.1.modify id (·.finish termination w)).seen id = s.1.seen id :=
    (alike_modify (f := (·.finish termination w)) (m := s.2) (fun _ => rfl) fun _ => rfl).types
  exact once.modify (fun _ => rfl) (fun _ reached => reached) (.inl (congrFun types slot))

/-- A walk takes nothing away, and leaves the slot written by its instruction alone. -/
theorem Walks.once (supplied : Supplied steps)
    (alone : ∀ k step, steps[k]? = some step → step.instr.result? = some slot → k = i)
    (walks : Walks invoke steps.toArray (fun _ => Poised t steps i E) task s ends s')
    (h : task.Singly slot i E s.1) : s'.1.Once slot i E ∧ s.1.Retains slot s'.1 := by
  induction walks with
  | onward poised done goes _ ih =>
    obtain ⟨next, retains⟩ := step_singly supplied alone poised h done goes
    obtain ⟨once, retains'⟩ := ih next
    exact ⟨once, retains.trans retains'⟩
  | stop poised done finished =>
    obtain ⟨once, retains, -⟩ := step_once supplied alone poised h.once done
    obtain ⟨once, retains'⟩ := finish_once once finished
    exact ⟨once, retains.trans retains'⟩
  | allNil => exact ⟨h.once, Arena.retains_refl slot _⟩
  | allCons first _ ihFirst ihRest =>
    obtain ⟨once, retains⟩ := ihFirst h.first
    have grows := (first.framed h.first.stands).1.grows
    obtain ⟨once, retains'⟩ := ihRest ⟨Task.Stands.rest h.stands grows, once, nofun⟩
    exact ⟨once, retains.trans retains'⟩
  | eachNil => exact ⟨h.once, Arena.retains_refl slot _⟩
  | eachCons bound first _ ihFirst ihRest =>
    obtain ⟨begun, retains⟩ := h.eachFirst bound
    obtain ⟨once, retains₁⟩ := ihFirst begun
    obtain ⟨once, retains₂⟩ := ihRest (h.eachLater bound first once)
    exact ⟨once, retains.trans (retains₁.trans retains₂)⟩

/-- Wherever a walk comes to, its instruction alone has written the slot, and what is seen there
goes on to be seen until the end. -/
theorem Leads.once (supplied : Supplied steps)
    (alone : ∀ k step, steps[k]? = some step → step.instr.result? = some slot → k = i)
    (leads : Leads invoke steps.toArray task s task' s₁)
    (walks : Walks invoke steps.toArray (fun _ => Poised t steps i E) task s ends s')
    (h : task.Singly slot i E s.1) :
    task'.Singly slot i E s₁.1 ∧ s₁.1.Retains slot s'.1 := by
  induction leads generalizing ends s' with
  | here => exact ⟨h, (walks.once supplied alone h).2⟩
  | onward done goes _ ih =>
    cases walks with
    | onward poised done' goes' walks =>
      obtain ⟨rfl, rfl⟩ := done.unique done'
      cases goes.symm.trans goes'
      exact ih walks (step_singly supplied alone poised h done goes).1
    | stop _ done' _ => cases (done.unique done').1; cases goes
  | first _ ih =>
    cases walks with
    | allCons walks later =>
      obtain ⟨there, retains⟩ := ih walks h.first
      have grows := (walks.framed h.first.stands).1.grows
      have once := (walks.once supplied alone h.first).1
      have rest := later.once supplied alone ⟨Task.Stands.rest h.stands grows, once, nofun⟩
      exact ⟨there, retains.trans rest.2⟩
  | later before _ ih =>
    cases walks with
    | allCons walks later =>
      obtain ⟨-, rfl⟩ := before.unique walks
      have grows := (walks.framed h.first.stands).1.grows
      have once := (walks.once supplied alone h.first).1
      exact ih later ⟨Task.Stands.rest h.stands grows, once, nofun⟩
  | eachFirst bound _ ih =>
    cases walks with
    | eachCons bound' walks later =>
      obtain ⟨-, rfl⟩ := bound.unique bound'
      have begun := (h.eachFirst bound).1
      obtain ⟨there, retains⟩ := ih walks begun
      have once := (walks.once supplied alone begun).1
      have rest := later.once supplied alone (h.eachLater bound walks once)
      exact ⟨there, retains.trans rest.2⟩
  | eachLater bound before _ ih =>
    cases walks with
    | eachCons bound' walks later =>
      obtain ⟨-, rfl⟩ := bound.unique bound'
      obtain ⟨-, rfl⟩ := before.unique walks
      have once := (walks.once supplied alone (h.eachFirst bound).1).1
      exact ih later (h.eachLater bound walks once)

end Walks

/-- What a call has handed a path is bound where the path goes on. -/
theorem step_binds {step : Step} {result : Slot} (supplied : Supplied steps)
    (ready : State.Ready t steps id index s) (found : steps[index]? = some step)
    (writes : step.instr.result? = some result) (first : (s.1.visit id index).1 = true)
    (done : Gives (Walk.step invoke ctx steps.toArray id index) s next s') :
    (∃ target, next = .next target) ∧ (s'.1.seen id result).isSome = true ∨
      ∃ v values target, next = .spread result (v :: values) target := by
  obtain ⟨b, there⟩ := Arena.exists_branch ready.there
  have arrives : Gives (arrive id index) s (s.1.visit id index).1 (s.visit id index) := rfl
  have unseen : b.visits index = 0 :=
    eq_of_beq ((gives_arrive there arrives).1.symm.trans first)
  rcases step_cases there done with ⟨off, -, -⟩ | ⟨step', found', ⟨again, -, -⟩ | ⟨-, executed⟩⟩
  · rw [List.getElem?_toArray, found] at off
    cases off
  · exact absurd unseen again
  · rw [List.getElem?_toArray] at found'
    cases found.symm.trans found'
    have leaves := execute_leaves supplied found ready.visit executed
    rcases leaves.result result writes with ended | ⟨⟨values, target, rfl⟩, -⟩
    · exact .inl ended
    · obtain ⟨-, -, -, -, -, -, -, several, -⟩ := step_goes there done
      cases values with
      | nil => cases several
      | cons v values => exact .inr ⟨v, values, target, rfl⟩

/-- What a path executes is seen where the path goes on. -/
theorem Walks.binds {P : Context → Nat → Nat → State → Prop} {step : Step} {result : Slot}
    (supplied : Supplied steps) (ready : State.Ready t steps id index s)
    (found : steps[index]? = some step) (writes : step.instr.result? = some result)
    (first : (s.1.visit id index).1 = true)
    (walks : Walks invoke steps.toArray P (.path ctx id index) s ends s') :
    ∃ task s₁ k T, Leads invoke steps.toArray (.path ctx id index) s task s₁ ∧
      s₁.1.seen k result = some T := by
  cases walks with
  | @onward _ _ _ _ _ _ s₁ _ _ _ done goes rest =>
    rcases step_binds supplied ready found writes first done with
      ⟨-, seen⟩ | ⟨v, values, target, rfl⟩
    · obtain ⟨T, seen⟩ := Option.isSome_iff_exists.1 seen
      exact ⟨_, s₁, id, T, .onward done goes .here, seen⟩
    · cases goes
      cases rest with
      | @eachCons _ _ _ _ _ _ _ s₂ _ _ _ _ bound _ _ =>
        refine ⟨_, s₂, s₁.1.size, v.type, .onward done rfl (.eachFirst bound .here), ?_⟩
        have inside : s₁.1.size < (s₁.1.child id).size := by
          rw [Arena.size_child]
          omega
        rw [seen_bindSlot inside bound, if_pos rfl]
  | stop _ done _ =>
    rcases step_binds supplied ready found writes first done with
      ⟨⟨_, goes⟩, -⟩ | ⟨_, _, _, goes⟩
    · cases goes
    · cases goes

end Once

end PathTyping
