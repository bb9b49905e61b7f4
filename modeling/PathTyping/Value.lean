import PathTyping.Symbols
import PathTyping.Assoc

/-!
# Symbolic values

A value stands for what an expression may give at one point of a path: its type, its value where
that is constant, the members it may name, the receiver it was loaded from, and properties that
were found before.  The bounds of a number are kept as the properties `min` and `max`.

A value that is bound to something is an object with a label of its own.  Two objects can have the
same contents; the label tells whether it is still the very receiver that a member was loaded from
that is held somewhere.  Label 0 is that of a value that is bound to nothing.

1. `copy_copy`: a copy of a copy is a copy.
2. `bounds_boundedNumber`: a number made with bounds has these bounds.
3. `reaches_label`: an object holds itself.
-/

namespace PathTyping

structure Value where
  label : Nat
  type : Ty
  constant : Option Literal
  /-- The receiver that the value was loaded from.  It is not kept alive by being named here. -/
  target : Option Value
  /-- What the value may name, where it names a function or a class. -/
  members : Option (List Member)
  properties : List (String × Value)

namespace Value

def ofType (type : Ty) : Value := ⟨0, type, none, none, none, []⟩

instance : Inhabited Value := ⟨ofType .any⟩

def any : Value := ofType .any

def ofLiteral (l : Literal) : Value := { ofType (.ofLiteral l) with constant := some l }

def nil : Value := ofLiteral .nil

/-- The type of a list of members: that of its first. -/
def typeOfMembers (t : SymbolTable) : List Member → Ty
  | .method _ :: _ => .function
  | .builtin _ :: _ => .function
  | .class_ id :: _ => t.classType id
  | _ => .any

def ofMembers (t : SymbolTable) (target : Option Value) (members : List Member) : Value :=
  { ofType (typeOfMembers t members) with target := target, members := some members }

/-! ## Copies and labels -/

mutual

/-- The contents of a value in new objects; receiver and members are shared. -/
def copy : Value → Value
  | ⟨_, type, constant, target, members, properties⟩ =>
    ⟨0, type, constant, target, members, copyProperties properties⟩
termination_by structural v => v

def copyProperties : List (String × Value) → List (String × Value)
  | [] => []
  | p :: rest => copyProperty p :: copyProperties rest
termination_by structural ps => ps

def copyProperty : String × Value → String × Value
  | (name, v) => (name, copy v)
termination_by structural p => p

end

mutual

/-- Gives new labels, from `next` on, to the value and to those of its properties that have none,
and returns the label that is free then. -/
def place (next : Nat) : Value → Value × Nat
  | ⟨label, type, constant, target, members, properties⟩ =>
    if label = 0 then
      let (properties, free) := placeProperties (next + 1) properties
      (⟨next, type, constant, target, members, properties⟩, free)
    else (⟨label, type, constant, target, members, properties⟩, next)
termination_by structural v => v

def placeProperties (next : Nat) : List (String × Value) → List (String × Value) × Nat
  | [] => ([], next)
  | p :: rest =>
    let (p, next) := placeProperty next p
    let (rest, next) := placeProperties next rest
    (p :: rest, next)
termination_by structural ps => ps

def placeProperty (next : Nat) : String × Value → (String × Value) × Nat
  | (name, v) =>
    let (v, next) := place next v
    ((name, v), next)
termination_by structural p => p

end

mutual

/-- The object `label` is the value or is held by it as a property. -/
def reaches (label : Nat) : Value → Bool
  | ⟨own, _, _, _, _, properties⟩ => own == label || propertiesReach label properties
termination_by structural v => v

def propertiesReach (label : Nat) : List (String × Value) → Bool
  | [] => false
  | p :: rest => propertyReaches label p || propertiesReach label rest
termination_by structural ps => ps

def propertyReaches (label : Nat) : String × Value → Bool
  | (_, v) => reaches label v
termination_by structural p => p

end

mutual

theorem copy_copy : ∀ v : Value, v.copy.copy = v.copy
  | ⟨_, _, _, _, _, properties⟩ => by
    simp only [copy, copyProperties_copyProperties properties]

theorem copyProperties_copyProperties :
    ∀ ps, copyProperties (copyProperties ps) = copyProperties ps
  | [] => rfl
  | p :: rest => by
    simp only [copyProperties, copyProperty_copyProperty p, copyProperties_copyProperties rest]

theorem copyProperty_copyProperty : ∀ p, copyProperty (copyProperty p) = copyProperty p
  | (_, v) => by simp only [copyProperty, copy_copy v]

end

@[simp] theorem copy_type (v : Value) : v.copy.type = v.type := by cases v; rfl

@[simp] theorem copy_constant (v : Value) : v.copy.constant = v.constant := by cases v; rfl

@[simp] theorem copy_members (v : Value) : v.copy.members = v.members := by cases v; rfl

@[simp] theorem copy_target (v : Value) : v.copy.target = v.target := by cases v; rfl

@[simp] theorem place_type (v : Value) (next : Nat) : (v.place next).1.type = v.type := by
  cases v
  unfold place
  split <;> rfl

theorem reaches_label (v : Value) : v.reaches v.label = true := by
  cases v; simp [reaches]

/-! ## What is known of a value -/

def number? (v : Value) : Option Float :=
  match v.constant with
  | some (.number x) => some x
  | _ => none

def string? (v : Value) : Option String :=
  match v.constant with
  | some (.string s) => some s
  | _ => none

def boolean? (v : Value) : Option Bool :=
  match v.constant with
  | some (.boolean b) => some b
  | _ => none

def property? (v : Value) (name : String) : Option Value := Assoc.find? v.properties name

def setProperty (v : Value) (name : String) (p : Value) : Value :=
  { v with properties := Assoc.insert v.properties name p }

def eraseProperty (v : Value) (name : String) : Value :=
  { v with properties := Assoc.erase v.properties name }

/-- The constant of the property that holds a bound. -/
def bound? (v : Value) (name : String) : Option Float := (v.property? name).bind number?

/-- The least and the greatest number that the value can be, where known. -/
def bounds (v : Value) : Option Float × Option Float :=
  match v.number? with
  | some x => (some x, some x)
  | none => (v.bound? "min", v.bound? "max")

/-- A number that is not constant, with the bounds that are known. -/
def boundedNumber (min max : Option Float) : Value :=
  let least := min.toList.map fun x => ("min", ofLiteral (.number x))
  let greatest := max.toList.map fun x => ("max", ofLiteral (.number x))
  { ofType .number with properties := least ++ greatest }

/-- Whether the value counts as true: nil and false do not, all else does. -/
def truthiness (v : Value) : Option Bool :=
  match v.constant, v.type with
  | some .nil, _ => some false
  | _, .nil => some false
  | some (.boolean b), _ => some b
  | some _, _ => some true
  | none, .number => some true
  | none, .string => some true
  | none, .function => some true
  | none, .classObject _ => some true
  | none, .instance_ _ => some true
  | none, _ => none

def describe (v : Value) : String :=
  match v.constant with
  | some l => v.type.describe ++ " (" ++ l.text ++ ")"
  | none => v.type.describe

theorem find?_copyProperties (ps : List (String × Value)) (name : String) :
    Assoc.find? (copyProperties ps) name = (Assoc.find? ps name).map copy := by
  induction ps with
  | nil => rfl
  | cons p rest ih =>
    obtain ⟨k, v⟩ := p
    by_cases h : k = name <;> simp [copyProperties, copyProperty, Assoc.find?, h, ih]

@[simp] theorem property?_copy (v : Value) (name : String) :
    v.copy.property? name = (v.property? name).map copy := by
  cases v; exact find?_copyProperties _ name

@[simp] theorem number?_copy (v : Value) : v.copy.number? = v.number? := by
  simp [number?]

@[simp] theorem bounds_copy (v : Value) : v.copy.bounds = v.bounds := by
  have bound (name : String) : v.copy.bound? name = v.bound? name := by
    cases h : v.property? name <;> simp [bound?, h]
  simp [bounds, bound]

@[simp] theorem number?_boundedNumber (min max : Option Float) :
    (boundedNumber min max).number? = none := rfl

theorem bounds_boundedNumber (min max : Option Float) :
    (boundedNumber min max).bounds = (min, max) := by
  cases min <;> cases max <;>
    simp [bounds, boundedNumber, ofType, number?, bound?, property?, Assoc.find?, ofLiteral]

end Value

end PathTyping
