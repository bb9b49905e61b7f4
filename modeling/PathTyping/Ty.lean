/-!
# Types

A type says what a value can be.  A union lists alternatives; the unions that the analysis builds
are made by `Ty.join`, which flattens them, keeps each alternative once in the order of first
appearance, and lets `any` absorb the rest.

1. `join_nil`, `join_singleton`: the join of nothing is `any`, and of one plain type that type.
2. `isAssignableTo_self`, `isAssignableTo_any`: every type fits itself and `any`.
3. `joinArms_append`, `joinArms_of_known`: a join takes types one behind the other, and types whose
   alternatives it has seen add nothing.
-/

namespace PathTyping

/-- A class of the module, by number and name. -/
structure ClassRef where
  id : Nat
  name : String
  deriving DecidableEq, Inhabited

inductive Ty
  | any
  | nil
  | boolean
  | number
  | string
  | function
  /-- The class itself, as naming it gives. -/
  | classObject (c : ClassRef)
  | instance_ (c : ClassRef)
  | union (arms : List Ty)
  deriving Inhabited

namespace Ty

/-! ## Equality -/

mutual

def same : Ty → Ty → Bool
  | any, any => true
  | nil, nil => true
  | boolean, boolean => true
  | number, number => true
  | string, string => true
  | function, function => true
  | classObject c, classObject d => c == d
  | instance_ c, instance_ d => c == d
  | union as, union bs => sameArms as bs
  | _, _ => false
termination_by structural a => a

def sameArms : List Ty → List Ty → Bool
  | [], [] => true
  | a :: as, b :: bs => same a b && sameArms as bs
  | _, _ => false
termination_by structural as => as

end

mutual

theorem same_iff : ∀ a b : Ty, same a b = true ↔ a = b
  | any, b => by cases b <;> simp [same]
  | nil, b => by cases b <;> simp [same]
  | boolean, b => by cases b <;> simp [same]
  | number, b => by cases b <;> simp [same]
  | string, b => by cases b <;> simp [same]
  | function, b => by cases b <;> simp [same]
  | classObject _, b => by cases b <;> simp [same]
  | instance_ _, b => by cases b <;> simp [same]
  | union as, b => by cases b <;> simp [same, sameArms_iff as]

theorem sameArms_iff : ∀ as bs : List Ty, sameArms as bs = true ↔ as = bs
  | [], bs => by cases bs <;> simp [sameArms]
  | a :: as, bs => by cases bs <;> simp [sameArms, same_iff a, sameArms_iff as]

end

instance : DecidableEq Ty := fun a b => decidable_of_iff (same a b = true) (same_iff a b)

/-! ## Unions -/

def isAny : Ty → Bool
  | any => true
  | _ => false

def isUnion : Ty → Bool
  | union _ => true
  | _ => false

/-- The alternatives of a type: its arms, or the type alone. -/
def arms : Ty → List Ty
  | union as => as
  | t => [t]

/-- Puts `t` behind `seen` unless it is there. -/
def insertArm (seen : List Ty) (t : Ty) : List Ty := if t ∈ seen then seen else seen ++ [t]

/-- The alternatives of all types in order, each once; nothing if one of the types is `any`. -/
def joinArms : List Ty → List Ty → Option (List Ty)
  | seen, [] => some seen
  | _, any :: _ => none
  | seen, t :: rest => joinArms (t.arms.foldl insertArm seen) rest

/-- The union of `arms` where it takes one: no arm gives `any`, one arm stands for itself. -/
def ofArms : List Ty → Ty
  | [] => any
  | [t] => t
  | as => union as

/-- The type of what belongs to one of the types. -/
def join (types : List Ty) : Ty :=
  match joinArms [] types with
  | some as => ofArms as
  | none => any

mutual

/-- The type as messages spell it. -/
def describe : Ty → String
  | any => "Any"
  | nil => "Nil"
  | boolean => "Boolean"
  | number => "Number"
  | string => "String"
  | function => "Function"
  | classObject c => "Class[" ++ c.name ++ "]"
  | instance_ c => c.name
  | union as => " | ".intercalate (describeArms as)

def describeArms : List Ty → List String
  | [] => []
  | t :: rest => describe t :: describeArms rest

end

/-! ## Order -/

mutual

/-- Every value of the first type is one of the second.  A union fits where its arms do; any other
type fits where it is an arm. -/
def isAssignableTo : Ty → Ty → Bool
  | union as, b => b.isAny || decide (union as = b) || armsAssignable as b
  | a, b =>
    b.isAny || decide (a = b) ||
      (match b with
        | union bs => decide (a ∈ bs)
        | _ => false)
termination_by structural a => a

def armsAssignable : List Ty → Ty → Bool
  | [], _ => true
  | a :: as, b => isAssignableTo a b && armsAssignable as b
termination_by structural as => as

end

/-- Some value could belong to both types. -/
def overlaps (a b : Ty) : Bool := a.isAny || b.isAny || a.arms.any (· ∈ b.arms)

@[simp] theorem join_nil : join [] = any := rfl

@[simp] theorem isAny_iff {t : Ty} : t.isAny = true ↔ t = any := by cases t <;> simp [isAny]

@[simp] theorem isAssignableTo_any (t : Ty) : t.isAssignableTo any = true := by
  cases t <;> simp [isAssignableTo, isAny]

@[simp] theorem isAssignableTo_self (t : Ty) : t.isAssignableTo t = true := by
  cases t <;> simp [isAssignableTo]

theorem armsAssignable_iff {as : List Ty} {b : Ty} :
    armsAssignable as b = true ↔ ∀ a ∈ as, a.isAssignableTo b = true := by
  induction as with
  | nil => simp [armsAssignable]
  | cons a as ih => simp [armsAssignable, ih]

theorem join_singleton {t : Ty} (hu : t.isUnion = false) : join [t] = t := by
  cases t <;> simp_all [join, joinArms, arms, insertArm, ofArms, isUnion]

/-! ## What a join has seen -/

theorem mem_foldl_insertArm {seen arms : List Ty} {t : Ty} :
    t ∈ arms.foldl insertArm seen ↔ t ∈ seen ∨ t ∈ arms := by
  induction arms generalizing seen with
  | nil => simp
  | cons a rest ih =>
    rw [List.foldl_cons, ih, List.mem_cons]
    unfold insertArm
    split
    · next known =>
      constructor
      · rintro (h | h)
        · exact .inl h
        · exact .inr (.inr h)
      · rintro (h | rfl | h)
        · exact .inl h
        · exact .inl known
        · exact .inr h
    · rw [List.mem_append, List.mem_singleton, or_assoc]

theorem foldl_insertArm_of_subset {seen arms : List Ty} (h : ∀ t ∈ arms, t ∈ seen) :
    arms.foldl insertArm seen = seen := by
  induction arms with
  | nil => rfl
  | cons a rest ih =>
    rw [List.foldl_cons, insertArm, if_pos (h a List.mem_cons_self)]
    exact ih fun t ht => h t (List.mem_cons_of_mem _ ht)

theorem joinArms_cons {seen rest : List Ty} {t : Ty} (h : t ≠ any) :
    joinArms seen (t :: rest) = joinArms (t.arms.foldl insertArm seen) rest := by
  cases t <;> first | rfl | exact absurd rfl h

theorem joinArms_append (seen types others : List Ty) :
    joinArms seen (types ++ others) = (joinArms seen types).bind (joinArms · others) := by
  induction types generalizing seen with
  | nil => rfl
  | cons t rest ih =>
    by_cases h : t = any
    · subst h
      rfl
    · rw [List.cons_append, joinArms_cons h, joinArms_cons h, ih]

/-- The alternatives of the types are among those that were seen. -/
def Known (seen types : List Ty) : Prop := ∀ t ∈ types, t ≠ any ∧ ∀ arm ∈ t.arms, arm ∈ seen

theorem joinArms_of_known {seen types : List Ty} (h : Known seen types) :
    joinArms seen types = some seen := by
  induction types with
  | nil => rfl
  | cons t rest ih =>
    obtain ⟨some_, arms⟩ := h t List.mem_cons_self
    rw [joinArms_cons some_, foldl_insertArm_of_subset arms]
    exact ih fun t ht => h t (List.mem_cons_of_mem _ ht)

theorem known_of_joinArms {seen types seen' : List Ty} (h : joinArms seen types = some seen') :
    (∀ t ∈ seen, t ∈ seen') ∧ Known seen' types := by
  induction types generalizing seen with
  | nil =>
    cases h
    exact ⟨fun _ ht => ht, nofun⟩
  | cons t rest ih =>
    by_cases known : t = any
    · subst known
      cases h
    · rw [joinArms_cons known] at h
      obtain ⟨older, others⟩ := ih h
      refine ⟨fun a ha => older a (mem_foldl_insertArm.2 (.inl ha)), fun a ha => ?_⟩
      rcases List.mem_cons.1 ha with rfl | ha
      · exact ⟨known, fun arm harm => older arm (mem_foldl_insertArm.2 (.inr harm))⟩
      · exact others a ha

theorem Known.mono {seen seen' types : List Ty} (h : Known seen types)
    (sub : ∀ t ∈ seen, t ∈ seen') : Known seen' types :=
  fun t ht => ⟨(h t ht).1, fun arm harm => sub arm ((h t ht).2 arm harm)⟩

end Ty

end PathTyping
