import PathTyping.Value
import PathTyping.Code

/-!
# Branches

A branch is a stretch of a path between two forks.  It holds what is bound on it; what it does not
bind is looked up on the branches that it comes from, back to the root.  The arena of a resolution
keeps all its branches, each under the number that it was made with, so a branch comes after the
one that it branches off.

1. `lookupSlot_bindSlot`: what is bound last is what is seen.
2. `size_child`: a child is a new branch, behind all others.
3. `branch?_modify_of_ne`: an operation on one branch leaves the others alone.
-/

namespace PathTyping

/-- What a resolution runs in: the body of a method, and the class whose method it is. -/
structure Scope where
  method : Option Nat
  owner : Option Nat
  deriving DecidableEq, Inhabited

def Scope.module : Scope := ⟨none, none⟩

/-- How a path ends. -/
inductive Termination
  | return_
  | fallThrough
  | loopCutoff
  deriving DecidableEq, Inhabited

inductive Parent
  | root (scope : Scope)
  | branch (id : Nat)
  deriving DecidableEq, Inhabited

structure Branch where
  parent : Parent
  /-- What was put into slots, the latest first. -/
  stack : List Value
  slots : List (Slot × Value)
  locals : List (String × Value)
  /-- How often each instruction was reached on the way from the root, up to 255. -/
  visited : List (Nat × Nat)
  looped : Bool
  termination : Option Termination
  returned : Option Value
  deriving Inhabited

namespace Branch

/-- A branch on which nothing is bound yet. -/
def fresh (parent : Parent) (visited : List (Nat × Nat)) : Branch :=
  ⟨parent, [], [], [], visited, false, none, none⟩

def isTerminal (b : Branch) : Bool := b.termination.isSome

def top? (b : Branch) : Option Value := b.stack.head?

def visits (b : Branch) (index : Nat) : Nat := (Assoc.find? b.visited index).getD 0

def bindSlot (b : Branch) (s : Slot) (v : Value) : Branch :=
  { b with slots := Assoc.insert b.slots s v, stack := v :: b.stack }

/-- Replaces what is seen through a slot, which leaves the stack as it is. -/
def rebindSlot (b : Branch) (s : Slot) (v : Value) : Branch :=
  { b with slots := Assoc.insert b.slots s v }

def bindVariable (b : Branch) (name : String) (v : Value) : Branch :=
  { b with locals := Assoc.insert b.locals name v }

def visit (b : Branch) (index : Nat) : Branch :=
  { b with visited := Assoc.insert b.visited index (min (b.visits index + 1) 255) }

def finish (b : Branch) (t : Termination) (v : Value) : Branch :=
  { b with looped := b.looped || t == .loopCutoff, termination := some t, returned := some v }

@[simp] theorem visits_visit_self (b : Branch) (index : Nat) :
    (b.visit index).visits index = min (b.visits index + 1) 255 := by simp [visits, visit]

theorem visits_visit_of_ne (b : Branch) {index other : Nat} (h : index ≠ other) :
    (b.visit index).visits other = b.visits other := by
  simp [visits, visit, Assoc.find?_insert_of_ne _ _ h]

/-- The object `label` is bound on the branch, or is a property of one that is. -/
def holds (label : Nat) (b : Branch) : Bool :=
  b.slots.any (·.2.reaches label) || b.locals.any (·.2.reaches label) ||
    b.stack.any (·.reaches label) || b.returned.any (·.reaches label)

/-- All values that are bound on the branch. -/
def values (b : Branch) : List Value :=
  b.slots.map Prod.snd ++ b.locals.map Prod.snd ++ b.stack ++ b.returned.toList

theorem holds_eq (b : Branch) (label : Nat) : b.holds label = b.values.any (·.reaches label) := by
  cases h : b.returned <;>
    simp [holds, values, h, List.any_map, Function.comp_def, Bool.or_assoc]

end Branch

structure Arena where
  branches : Array Branch
  deriving Inhabited

namespace Arena

def empty : Arena := ⟨#[]⟩

def size (a : Arena) : Nat := a.branches.size

def branch? (a : Arena) (id : Nat) : Option Branch := a.branches[id]?

def push (a : Arena) (b : Branch) : Arena := ⟨a.branches.push b⟩

def root (a : Arena) (scope : Scope) : Arena := a.push (.fresh (.root scope) [])

/-- A new branch behind `id`, which knows where its lineage has been. -/
def child (a : Arena) (id : Nat) : Arena :=
  a.push (.fresh (.branch id) ((a.branch? id).elim [] (·.visited)))

def modify (a : Arena) (id : Nat) (f : Branch → Branch) : Arena := ⟨a.branches.modify id f⟩

/-- Counts that a branch reaches an instruction; whether that is the first time on the way from
the root. -/
def visit (a : Arena) (id index : Nat) : Bool × Arena :=
  let a := a.modify id (·.visit index)
  ((a.branch? id).elim 0 (·.visits index) == 1, a)

/-- The branch, the one it comes from, and so on to the root. -/
def lineage (a : Arena) (id : Nat) : List Branch :=
  match a.branches[id]? with
  | none => []
  | some b =>
    match b.parent with
    | .root _ => [b]
    | .branch p => if p < id then b :: lineage a p else [b]
termination_by id

/-- The scope of the root that the branch comes from. -/
def scope (a : Arena) (id : Nat) : Scope :=
  let scopes := (a.lineage id).filterMap fun b =>
    match b.parent with
    | .root s => some s
    | .branch _ => none
  scopes.head?.getD .module

def lookupSlot (a : Arena) (id : Nat) (s : Slot) : Option Value :=
  (a.lineage id).findSome? fun b => Assoc.find? b.slots s

def lookupVariable (a : Arena) (id : Nat) (name : String) : Option Value :=
  (a.lineage id).findSome? fun b => Assoc.find? b.locals name

def holds (label : Nat) (a : Arena) : Bool := a.branches.any (·.holds label)

@[simp] theorem size_modify (a : Arena) (id : Nat) (f : Branch → Branch) :
    (a.modify id f).size = a.size := by simp [modify, size]

@[simp] theorem size_push (a : Arena) (b : Branch) : (a.push b).size = a.size + 1 := by
  simp [push, size]

@[simp] theorem size_child (a : Arena) (id : Nat) : (a.child id).size = a.size + 1 :=
  a.size_push _

theorem branch?_modify (a : Arena) (id other : Nat) (f : Branch → Branch) :
    (a.modify id f).branch? other =
      if id = other then (a.branch? other).map f else a.branch? other := by
  simp [modify, branch?, Array.getElem?_modify]

theorem branch?_modify_of_ne (a : Arena) {id other : Nat} (f : Branch → Branch) (h : id ≠ other) :
    (a.modify id f).branch? other = a.branch? other := by
  rw [branch?_modify, if_neg h]

theorem branch?_push_of_lt (a : Arena) (b : Branch) {id : Nat} (h : id < a.size) :
    (a.push b).branch? id = a.branch? id := by
  simp only [push, branch?, Array.getElem?_push]
  exact if_neg (show id ≠ a.branches.size from Nat.ne_of_lt h)

theorem branch?_eq_none_iff {a : Arena} {id : Nat} : a.branch? id = none ↔ a.size ≤ id := by
  simp [branch?, size]

theorem lt_size_of_branch? {a : Arena} {id : Nat} {b : Branch} (h : a.branch? id = some b) :
    id < a.size := (Array.getElem?_eq_some_iff.1 h).1

@[simp] theorem branch?_push_size (a : Arena) (b : Branch) :
    (a.push b).branch? a.size = some b := by simp [push, branch?, size]

theorem branch?_child_of_lt (a : Arena) (parent : Nat) {id : Nat} (h : id < a.size) :
    (a.child parent).branch? id = a.branch? id := a.branch?_push_of_lt _ h

/-- Two arenas are the same if they have the same branches under the same numbers. -/
theorem ext_branch? {a a' : Arena} (h : ∀ id, a.branch? id = a'.branch? id) : a = a' := by
  cases a; cases a'
  exact congrArg Arena.mk (Array.ext_getElem? h)

@[simp] theorem branch?_child_size (a : Arena) (id : Nat) :
    (a.child id).branch? a.size =
      some (.fresh (.branch id) ((a.branch? id).elim [] (·.visited))) := a.branch?_push_size _

theorem modify_modify (a : Arena) (id : Nat) (f g : Branch → Branch) :
    (a.modify id f).modify id g = a.modify id (g ∘ f) := by
  refine ext_branch? fun other => ?_
  simp only [branch?_modify]
  split <;> simp

@[simp] theorem modify_id (a : Arena) (id : Nat) : a.modify id (fun b => b) = a := by
  refine ext_branch? fun other => ?_
  rw [branch?_modify]
  split <;> simp

theorem lineage_eq_cons {a : Arena} {id : Nat} {b : Branch} (h : a.branch? id = some b) :
    ∃ rest, a.lineage id = b :: rest := by
  unfold lineage
  rw [show a.branches[id]? = some b from h]
  simp only
  split
  · exact ⟨_, rfl⟩
  · split <;> exact ⟨_, rfl⟩

/-- A lineage depends on the branches up to its own. -/
theorem lineage_congr {a a' : Arena} {id : Nat} (h : ∀ k ≤ id, a.branch? k = a'.branch? k) :
    a.lineage id = a'.lineage id := by
  induction id using Nat.strongRecOn with
  | _ id ih =>
    have same := h id (Nat.le_refl id)
    unfold lineage
    rw [show a.branches[id]? = a'.branches[id]? from same]
    split
    · rfl
    · split
      · rfl
      · next p _ =>
        split
        · next older => rw [ih p older fun k hk => h k (Nat.le_trans hk (Nat.le_of_lt older))]
        · rfl

/-- What is changed on a branch does not change the lineage behind it. -/
theorem lineage_modify {a : Arena} {id : Nat} {b : Branch} {rest : List Branch}
    {f : Branch → Branch} (keeps : (f b).parent = b.parent) (h : a.branch? id = some b)
    (lineage : a.lineage id = b :: rest) : (a.modify id f).lineage id = f b :: rest := by
  have found : (a.modify id f).branch? id = some (f b) := by
    rw [branch?_modify, if_pos rfl, h, Option.map_some]
  unfold Arena.lineage at lineage ⊢
  rw [show a.branches[id]? = some b from h] at lineage
  rw [show (a.modify id f).branches[id]? = some (f b) from found]
  simp only at lineage ⊢
  rw [keeps]
  cases parent : b.parent with
  | root s =>
    rw [parent] at lineage
    cases lineage
    rfl
  | branch p =>
    rw [parent] at lineage
    simp only at lineage ⊢
    split
    · next older =>
      rw [if_pos older] at lineage
      have same : (a.modify id f).lineage p = a.lineage p := lineage_congr fun k hk =>
        a.branch?_modify_of_ne f (Nat.ne_of_gt (Nat.lt_of_le_of_lt hk older))
      rw [same]
      exact congrArg (f b :: ·) (List.cons.inj lineage).2
    · next younger =>
      rw [if_neg younger] at lineage
      cases lineage
      rfl

theorem lineage_of_parent {a : Arena} {id p : Nat} {b : Branch} (h : a.branch? id = some b)
    (parent : b.parent = .branch p) (older : p < id) : a.lineage id = b :: a.lineage p := by
  rw [lineage, show a.branches[id]? = some b from h]
  simp only [parent, if_pos older]

theorem mem_lineage {a : Arena} {id : Nat} {b : Branch} (h : b ∈ a.lineage id) :
    ∃ k, a.branch? k = some b := by
  induction id using Nat.strongRecOn with
  | _ id ih =>
    unfold lineage at h
    split at h
    · cases h
    · next b' found =>
      split at h
      · exact ⟨id, List.mem_singleton.1 h ▸ found⟩
      · split at h
        · next older =>
          rcases List.mem_cons.1 h with rfl | h
          · exact ⟨id, found⟩
          · exact ih _ older h
        · exact ⟨id, List.mem_singleton.1 h ▸ found⟩

theorem holds_iff {a : Arena} {label : Nat} :
    a.holds label = true ↔ ∃ id b, a.branch? id = some b ∧ b.holds label = true := by
  simp only [holds, Array.any_eq_true, branch?, Array.getElem?_eq_some_iff]
  constructor
  · rintro ⟨id, inside, h⟩
    exact ⟨id, _, ⟨inside, rfl⟩, h⟩
  · rintro ⟨id, b, ⟨inside, rfl⟩, h⟩
    exact ⟨id, inside, h⟩

theorem holds_child (a : Arena) (id label : Nat) : (a.child id).holds label = a.holds label := by
  simp [holds, child, push, Branch.holds, Branch.fresh]

theorem lookupSlot_eq {a : Arena} {id : Nat} {b : Branch} {rest : List Branch}
    (h : a.lineage id = b :: rest) (s : Slot) : a.lookupSlot id s =
      (Assoc.find? b.slots s).or (rest.findSome? fun b => Assoc.find? b.slots s) := by
  rw [lookupSlot, h, List.findSome?_cons]
  cases Assoc.find? b.slots s <;> rfl

theorem lookupVariable_eq {a : Arena} {id : Nat} {b : Branch} {rest : List Branch}
    (h : a.lineage id = b :: rest) (name : String) : a.lookupVariable id name =
      (Assoc.find? b.locals name).or (rest.findSome? fun b => Assoc.find? b.locals name) := by
  rw [lookupVariable, h, List.findSome?_cons]
  cases Assoc.find? b.locals name <;> rfl

theorem scope_eq {a a' : Arena} {id id' : Nat}
    (h : (a'.lineage id').map Branch.parent = (a.lineage id).map Branch.parent) :
    a'.scope id' = a.scope id := by
  have same (bs : List Branch) :
      (bs.filterMap fun b => match b.parent with | .root s => some s | .branch _ => none) =
        (bs.map Branch.parent).filterMap fun
          | .root s => some s
          | .branch _ => none := by rw [List.filterMap_map]; rfl
  rw [scope, scope, same, same, h]

theorem lookupSlot_bindSlot {a : Arena} {id : Nat} {b : Branch} (h : a.branch? id = some b)
    (s : Slot) (v : Value) : (a.modify id (·.bindSlot s v)).lookupSlot id s = some v := by
  have found : (a.modify id (·.bindSlot s v)).branch? id = some (b.bindSlot s v) := by
    rw [branch?_modify, if_pos rfl, h]; rfl
  obtain ⟨rest, hrest⟩ := lineage_eq_cons found
  rw [lookupSlot, hrest]
  simp [Branch.bindSlot]

theorem lookupVariable_bindVariable {a : Arena} {id : Nat} {b : Branch}
    (h : a.branch? id = some b) (name : String) (v : Value) :
    (a.modify id (·.bindVariable name v)).lookupVariable id name = some v := by
  have found : (a.modify id (·.bindVariable name v)).branch? id = some (b.bindVariable name v) := by
    rw [branch?_modify, if_pos rfl, h]; rfl
  obtain ⟨rest, hrest⟩ := lineage_eq_cons found
  rw [lookupVariable, hrest]
  simp [Branch.bindVariable]

end Arena

end PathTyping
