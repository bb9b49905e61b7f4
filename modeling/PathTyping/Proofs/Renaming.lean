import PathTyping.Analysis
import PathTyping.Value.Operators
import PathTyping.Resolution

/-!
# Renaming objects

A label tells an object from others with the same contents, and nothing else is done with it.
Renaming the labels of values therefore does not change what is looked up or computed from them.  A
renaming may merge labels, but it keeps label 0 apart, and new labels are renamed in their order.

1. Operators and lookups do not see labels (`binary_rename`, `named_rename`, `element_rename`).
2. A value that is placed has the renamed labels, and as many of them (`place_rename`).
3. What reaches a label before the renaming reaches its name afterwards, and nothing else does
   (`reaches_rename`).
-/

namespace PathTyping

namespace Assoc

variable {κ ν μ : Type}

def mapValues (g : ν → μ) (m : Assoc κ ν) : Assoc κ μ := m.map fun p => (p.1, g p.2)

@[simp] theorem mapValues_nil (g : ν → μ) : mapValues g ([] : Assoc κ ν) = [] := rfl

@[simp] theorem mapValues_cons (g : ν → μ) (p : κ × ν) (m : Assoc κ ν) :
    mapValues g (p :: m) = (p.1, g p.2) :: mapValues g m := rfl

variable [DecidableEq κ]

@[simp] theorem find?_mapValues (g : ν → μ) (m : Assoc κ ν) (key : κ) :
    find? (mapValues g m) key = (find? m key).map g := by
  induction m with
  | nil => rfl
  | cons p rest ih =>
    obtain ⟨k, v⟩ := p
    by_cases h : k = key <;> simp [find?, h, ih]

@[simp] theorem erase_mapValues (g : ν → μ) (m : Assoc κ ν) (key : κ) :
    erase (mapValues g m) key = mapValues g (erase m key) := by
  induction m with
  | nil => rfl
  | cons p rest ih =>
    obtain ⟨k, v⟩ := p
    by_cases h : k = key <;> simp [erase, h, ih]

@[simp] theorem insert_mapValues (g : ν → μ) (m : Assoc κ ν) (key : κ) (v : ν) :
    insert (mapValues g m) key (g v) = mapValues g (insert m key v) := by
  rw [insert_eq, insert_eq, erase_mapValues, mapValues_cons]

end Assoc

/-- The renaming keeps label 0 apart and renames labels from `n` on in their order. -/
structure Renaming (f : Nat → Nat) (n : Nat) : Prop where
  zero : ∀ l, f l = 0 ↔ l = 0
  next : ∀ l, n ≤ l → f (l + 1) = f l + 1

theorem Renaming.map_zero {f : Nat → Nat} {n : Nat} (r : Renaming f n) : f 0 = 0 := (r.zero 0).2 rfl

namespace Value

/-! ## Values -/

mutual

def rename (f : Nat → Nat) : Value → Value
  | ⟨label, type, constant, target, members, properties⟩ =>
    ⟨f label, type, constant, renameTarget f target, members, renameProperties f properties⟩
termination_by structural v => v

def renameTarget (f : Nat → Nat) : Option Value → Option Value
  | none => none
  | some v => some (rename f v)
termination_by structural v => v

def renameProperties (f : Nat → Nat) : List (String × Value) → List (String × Value)
  | [] => []
  | p :: rest => renameProperty f p :: renameProperties f rest
termination_by structural ps => ps

def renameProperty (f : Nat → Nat) : String × Value → String × Value
  | (name, v) => (name, rename f v)
termination_by structural p => p

end

theorem renameTarget_eq (f : Nat → Nat) (target : Option Value) :
    renameTarget f target = target.map (rename f) := by
  cases target <;> rfl

theorem renameProperties_eq (f : Nat → Nat) (ps : List (String × Value)) :
    renameProperties f ps = Assoc.mapValues (rename f) ps := by
  induction ps with
  | nil => rfl
  | cons p rest ih =>
    obtain ⟨name, v⟩ := p
    rw [renameProperties, renameProperty, ih, Assoc.mapValues_cons]

section Rename

variable (f : Nat → Nat) (v w : Value)

@[simp] theorem label_rename : (v.rename f).label = f v.label := by cases v; rfl

@[simp] theorem type_rename : (v.rename f).type = v.type := by cases v; rfl

@[simp] theorem constant_rename : (v.rename f).constant = v.constant := by cases v; rfl

@[simp] theorem members_rename : (v.rename f).members = v.members := by cases v; rfl

@[simp] theorem target_rename : (v.rename f).target = v.target.map (rename f) := by
  cases v; exact renameTarget_eq f _

@[simp] theorem properties_rename :
    (v.rename f).properties = Assoc.mapValues (rename f) v.properties := by
  cases v; exact renameProperties_eq f _

@[simp] theorem property?_rename (name : String) :
    (v.rename f).property? name = (v.property? name).map (rename f) := by
  rw [property?, properties_rename, Assoc.find?_mapValues]
  rfl

@[simp] theorem number?_rename : (v.rename f).number? = v.number? := by simp [number?]

@[simp] theorem string?_rename : (v.rename f).string? = v.string? := by simp [string?]

@[simp] theorem boolean?_rename : (v.rename f).boolean? = v.boolean? := by simp [boolean?]

@[simp] theorem truthiness_rename : (v.rename f).truthiness = v.truthiness := by simp [truthiness]

@[simp] theorem bounds_rename : (v.rename f).bounds = v.bounds := by
  have bound (name : String) : (v.rename f).bound? name = v.bound? name := by
    rw [bound?, bound?, property?_rename]
    cases v.property? name <;> simp
  simp [bounds, bound]

theorem ext_fields {v w : Value} (label : v.label = w.label) (type : v.type = w.type)
    (constant : v.constant = w.constant) (target : v.target = w.target)
    (members : v.members = w.members) (properties : v.properties = w.properties) : v = w := by
  cases v; cases w
  simp_all

theorem setProperty_rename (name : String) :
    (v.rename f).setProperty name (w.rename f) = (v.setProperty name w).rename f := by
  apply ext_fields <;> simp [setProperty]

end Rename

/-! ## Values without labels -/

section Fresh

variable {f : Nat → Nat} {n : Nat}

mutual

theorem copy_rename (r : Renaming f n) : ∀ v : Value, (v.rename f).copy = v.copy.rename f
  | ⟨_, _, _, _, _, properties⟩ => by
    simp only [rename, copy, copyProperties_rename r properties, r.map_zero]

theorem copyProperties_rename (r : Renaming f n) : ∀ ps,
    copyProperties (renameProperties f ps) = renameProperties f (copyProperties ps)
  | [] => rfl
  | p :: rest => by
    simp only [renameProperties, copyProperties, copyProperty_rename r p,
      copyProperties_rename r rest]

theorem copyProperty_rename (r : Renaming f n) : ∀ p,
    copyProperty (renameProperty f p) = renameProperty f (copyProperty p)
  | (_, v) => by simp only [renameProperty, copyProperty, copy_rename r v]

end

variable (r : Renaming f n)
include r

theorem rename_ofType (type : Ty) : (ofType type).rename f = ofType type := by
  simp only [ofType, rename, renameTarget, renameProperties, r.map_zero]

theorem rename_any : any.rename f = any := rename_ofType r .any

theorem rename_ofLiteral (l : Literal) : (ofLiteral l).rename f = ofLiteral l := by
  simp only [ofLiteral, ofType, rename, renameTarget, renameProperties, r.map_zero]

theorem rename_boundedNumber (min max : Option Float) :
    (boundedNumber min max).rename f = boundedNumber min max := by
  cases min <;> cases max <;>
    simp [boundedNumber, ofType, rename, renameTarget, renameProperties, renameProperty,
      rename_ofLiteral r, r.map_zero]

theorem rename_ofMembers (t : SymbolTable) (target : Option Value) (members : List Member) :
    (ofMembers t target members).rename f = ofMembers t (target.map (rename f)) members := by
  simp only [ofMembers, ofType, rename, renameTarget_eq, renameProperties, r.map_zero]

theorem rename_ofTruth (truth : Option Bool) : (ofTruth truth).rename f = ofTruth truth := by
  cases truth
  · exact rename_ofType r _
  · exact rename_ofLiteral r _

/-! ## Operators -/

theorem unary_rename (op : UnaryOp) (v : Value) : unary op (v.rename f) = (unary op v).rename f := by
  cases op with
  | positive => exact copy_rename r v
  | negative =>
    show negative (v.rename f) = (negative v).rename f
    unfold negative
    simp only [number?_rename, type_rename, bounds_rename]
    split
    · exact (rename_ofLiteral r _).symm
    · split
      · exact (rename_boundedNumber r _ _).symm
      · exact copy_rename r v
  | not =>
    show negation (v.rename f) = (negation v).rename f
    unfold negation
    rw [truthiness_rename]
    split
    · exact (rename_ofLiteral r _).symm
    · exact (rename_ofType r _).symm

omit r in
theorem binary_of_rename (op : BinaryOp) (v w : Value) :
    binary op (v.rename f) (w.rename f) = binary op v w := by
  cases op <;>
    simp [binary, add, arithmetic, Arithmetic.estimate, equal?, comparison, Comparison.ofBounds,
      logical]

theorem rename_of_binary (op : BinaryOp) (v w : Value) :
    (binary op v w).map (rename f) = binary op v w := by
  have number (op : Arithmetic) : (op.estimate v w).rename f = op.estimate v w := by
    cases op <;> simp only [Arithmetic.estimate]
    · exact rename_boundedNumber r _ _
    · exact rename_ofType r _
    · exact rename_ofType r _
    · split
      · split
        · exact rename_boundedNumber r _ _
        · exact rename_ofType r _
      · exact rename_ofType r _
  have folded (op : Arithmetic) : (arithmetic op v w).map (rename f) = arithmetic op v w := by
    unfold arithmetic
    split
    · dsimp only
      split
      · rw [Option.map_some, rename_ofLiteral r]
      · rw [Option.map_some, number]
    · rw [Option.map_some, rename_ofType r]
    · rw [Option.map_some, rename_ofType r]
    · rfl
  have compared (op : Comparison) : (comparison op v w).map (rename f) = comparison op v w := by
    unfold comparison
    split
    · rw [Option.map_some, rename_ofTruth r]
    · split <;> rw [Option.map_some, rename_ofTruth r]
    · rfl
  have combined (combine : Option Bool → Option Bool → Option Bool) :
      (logical combine v w).rename f = logical combine v w := by
    unfold logical
    split
    · exact rename_ofTruth r _
    · exact rename_ofType r _
  cases op with
  | add =>
    unfold binary add
    dsimp only
    split
    · split
      · rw [Option.map_some, rename_ofLiteral r]
      · rw [Option.map_some, rename_boundedNumber r]
    iterate 3
      · split
        · rw [Option.map_some, rename_ofLiteral r]
        · rw [Option.map_some, rename_ofType r]
    · rfl
  | equal => exact congrArg some (rename_ofTruth r _)
  | notEqual => exact congrArg some (rename_ofTruth r _)
  | and => exact congrArg some (combined _)
  | or => exact congrArg some (combined _)
  | subtract => exact folded _
  | multiply => exact folded _
  | divide => exact folded _
  | modulo => exact folded _
  | less => exact compared _
  | lessEqual => exact compared _
  | greater => exact compared _
  | greaterEqual => exact compared _

theorem binary_rename (op : BinaryOp) (v w : Value) :
    binary op (v.rename f) (w.rename f) = (binary op v w).map (rename f) := by
  rw [binary_of_rename, rename_of_binary r]

end Fresh

/-! ## Labels -/

section Place

variable {f : Nat → Nat} {n : Nat}

mutual

/-- A value takes the labels that it is renamed to. -/
theorem place_rename (r : Renaming f n) : ∀ (v : Value) (next : Nat), n ≤ next →
    n ≤ (v.place next).2 ∧
      (v.rename f).place (f next) = ((v.place next).1.rename f, f (v.place next).2)
  | ⟨label, _, _, _, _, properties⟩, next, late => by
    by_cases unplaced : label = 0
    · obtain ⟨later, same⟩ := placeProperties_rename r properties (next + 1) (by omega)
      rw [r.next next late] at same
      simp only [rename, place, if_pos unplaced, if_pos ((r.zero label).2 unplaced), same]
      exact ⟨later, trivial⟩
    · simp only [rename, place, if_neg unplaced, if_neg (mt (r.zero label).1 unplaced)]
      exact ⟨late, trivial⟩

theorem placeProperties_rename (r : Renaming f n) : ∀ (ps : List (String × Value)) (next : Nat),
    n ≤ next → n ≤ (placeProperties next ps).2 ∧
      placeProperties (f next) (renameProperties f ps) =
        (renameProperties f (placeProperties next ps).1, f (placeProperties next ps).2)
  | [], _, late => ⟨late, rfl⟩
  | p :: rest, next, late => by
    obtain ⟨later, same⟩ := placeProperty_rename r p next late
    obtain ⟨last, others⟩ := placeProperties_rename r rest _ later
    simp only [renameProperties, placeProperties, same, others]
    exact ⟨last, trivial⟩

theorem placeProperty_rename (r : Renaming f n) : ∀ (p : String × Value) (next : Nat), n ≤ next →
    n ≤ (placeProperty next p).2 ∧
      placeProperty (f next) (renameProperty f p) =
        (renameProperty f (placeProperty next p).1, f (placeProperty next p).2)
  | (name, v), next, late => by
    obtain ⟨later, same⟩ := place_rename r v next late
    simp only [renameProperty, placeProperty, same]
    exact ⟨later, trivial⟩

end

mutual

theorem reaches_rename (f : Nat → Nat) (l : Nat) : ∀ v : Value,
    (v.rename f).reaches l = true ↔ ∃ k, f k = l ∧ v.reaches k = true
  | ⟨label, _, _, _, _, properties⟩ => by
    simp only [rename, reaches, Bool.or_eq_true, beq_iff_eq, propertiesReach_rename f l properties]
    constructor
    · rintro (rfl | ⟨k, rfl, held⟩)
      · exact ⟨label, rfl, .inl rfl⟩
      · exact ⟨k, rfl, .inr held⟩
    · rintro ⟨k, rfl, rfl | held⟩
      · exact .inl rfl
      · exact .inr ⟨k, rfl, held⟩

theorem propertiesReach_rename (f : Nat → Nat) (l : Nat) : ∀ ps : List (String × Value),
    propertiesReach l (renameProperties f ps) = true ↔
      ∃ k, f k = l ∧ propertiesReach k ps = true
  | [] => by simp [renameProperties, propertiesReach]
  | p :: rest => by
    simp only [renameProperties, propertiesReach, Bool.or_eq_true, propertyReaches_rename f l p,
      propertiesReach_rename f l rest]
    constructor
    · rintro (⟨k, rfl, held⟩ | ⟨k, rfl, held⟩)
      · exact ⟨k, rfl, .inl held⟩
      · exact ⟨k, rfl, .inr held⟩
    · rintro ⟨k, rfl, held | held⟩
      · exact .inl ⟨k, rfl, held⟩
      · exact .inr ⟨k, rfl, held⟩

theorem propertyReaches_rename (f : Nat → Nat) (l : Nat) : ∀ p : String × Value,
    propertyReaches l (renameProperty f p) = true ↔ ∃ k, f k = l ∧ propertyReaches k p = true
  | (_, v) => reaches_rename f l v

end

end Place

end Value

/-! ## Lookups -/

section Lookups

open Value

variable {f : Nat → Nat} {n : Nat} (r : Renaming f n) (t : SymbolTable)
include r

theorem memberValue_rename (receiver : Option Value) (first : Member) (members : List Member) :
    t.memberValue (receiver.map (rename f)) first members =
      (t.memberValue receiver first members).rename f := by
  unfold SymbolTable.memberValue
  split
  · exact (rename_ofType r _).symm
  · dsimp only
    split
    · exact (rename_ofLiteral r _).symm
    · exact (rename_ofType r _).symm
  · exact (rename_ofMembers r t none _).symm
  · exact (rename_ofMembers r t receiver _).symm
  · exact (rename_ofMembers r t receiver _).symm

theorem ofMembers?_rename (receiver : Option Value) (members : List Member) :
    t.ofMembers? (receiver.map (rename f)) members =
      (t.ofMembers? receiver members).map (rename f) := by
  cases members with
  | nil => rfl
  | cons first rest => exact congrArg some (memberValue_rename r t receiver first _)

theorem named_rename (owner : Option Nat) (self? : Option Value) (name : String) :
    t.named owner (self?.map (rename f)) name = (t.named owner self? name).map (rename f) := by
  have own : (owner.bind fun id => t.ofMembers? (self?.map (rename f)) (t.classMembers id name)) =
      (owner.bind fun id => t.ofMembers? self? (t.classMembers id name)).map (rename f) := by
    cases owner with
    | none => rfl
    | some id => exact ofMembers?_rename r t self? _
  have outer := ofMembers?_rename r t none (t.getMembers name)
  have builtin : ((Builtin.ofName? name).map fun b => ofMembers t none [.builtin b]).map (rename f) =
      (Builtin.ofName? name).map fun b => ofMembers t none [.builtin b] := by
    cases Builtin.ofName? name with
    | none => rfl
    | some b => exact congrArg some (rename_ofMembers r t none _)
  unfold SymbolTable.named
  dsimp only
  rw [own]
  cases owner.bind fun id => t.ofMembers? self? (t.classMembers id name) with
  | some v => rfl
  | none =>
    change t.ofMembers? none (t.getMembers name) = _ at outer
    cases found : t.ofMembers? none (t.getMembers name) with
    | some v =>
      rw [found] at outer
      exact congrArg Except.ok (Option.some.inj outer)
    | none =>
      cases known : (Builtin.ofName? name).map fun b => ofMembers t none [.builtin b] with
      | none => rfl
      | some v =>
        rw [known] at builtin
        exact congrArg Except.ok (Option.some.inj builtin).symm

mutual

theorem findMember_rename (name : String) (target : Value) : ∀ type : Ty,
    t.findMember name (target.rename f) type = (t.findMember name target type).map (rename f)
  | .instance_ c => ofMembers?_rename r t (some target) _
  | .classObject c => ofMembers?_rename r t (some target) _
  | .string => by
    unfold SymbolTable.findMember
    split
    · rw [string?_rename]
      split
      · exact congrArg some (rename_ofLiteral r _).symm
      · exact congrArg some (rename_boundedNumber r _ _).symm
    · rfl
  | .number => by
    unfold SymbolTable.findMember
    split
    · exact congrArg some (rename_ofType r _).symm
    · rfl
  | .any => congrArg some (rename_any r).symm
  | .union arms => by
    have members := rename_of_findMembers name arms
    unfold SymbolTable.findMember
    split
    · rfl
    · next v found =>
      rw [found] at members
      exact congrArg some (members v List.mem_cons_self).symm
    · exact congrArg some (rename_ofType r _).symm
  | .nil => rfl
  | .boolean => rfl
  | .function => rfl

theorem rename_of_findMembers (name : String) : ∀ (types : List Ty),
    ∀ v ∈ t.findMembers name types, v.rename f = v
  | [], _, found => absurd found List.not_mem_nil
  | type :: rest, v, found => by
    rw [SymbolTable.findMembers, List.mem_append, Option.mem_toList] at found
    rcases found with here | later
    · have same := findMember_rename name (.ofType type) type
      rw [rename_ofType r, here] at same
      exact (Option.some.inj same).symm
    · exact rename_of_findMembers name rest v later

end

theorem member_rename (target : Value) (name : String) :
    t.member (target.rename f) name = (t.member target name).map (rename f) := by
  unfold SymbolTable.member
  rw [type_rename, findMember_rename r t name target]
  cases t.findMember name target target.type <;> rfl

theorem element_rename (target key : Value) :
    t.element (target.rename f) (key.rename f) = (t.element target key).map (rename f) := by
  have entry : t.entry (target.rename f) (key.rename f) = (t.entry target key).map (rename f) := by
    unfold SymbolTable.entry
    rw [string?_rename, type_rename, type_rename]
    split
    · exact member_rename r t target _
    · split
      · exact congrArg Except.ok (rename_any r).symm
      · exact congrArg Except.ok (rename_any r).symm
      · rfl
  have character : (SymbolTable.character target key).rename f =
      SymbolTable.character target key := by
    unfold SymbolTable.character
    dsimp only
    split
    · exact rename_ofLiteral r _
    · exact rename_ofType r _
  unfold SymbolTable.element
  simp only [type_rename]
  split
  · exact congrArg Except.ok (rename_any r).symm
  · refine congrArg Except.ok (Eq.trans ?_ character.symm)
    unfold SymbolTable.character
    rw [string?_rename, number?_rename]
  · exact congrArg Except.ok (rename_ofType r _).symm
  · exact entry
  · exact entry
  · rfl

end Lookups

end PathTyping
