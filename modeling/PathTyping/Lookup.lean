import PathTyping.Value
import PathTyping.Finding

/-!
# Lookups

The value that a name, a member or an index stands for.  Every lookup is a function of the symbol
table and of the values at hand; it gives a value or the finding that there is none.

1. `ofMembers?_eq_none_iff`: members stand for a value exactly when there are some.
2. `findMember_any`: every member of a value of type `any` may be anything.
-/

namespace PathTyping

namespace SymbolTable

/-- The value that the first of some members decides: its type for a field, its constant or its
type for a global, the class itself, or all that can be called under the name. -/
def memberValue (t : SymbolTable) (receiver : Option Value) (first : Member)
    (members : List Member) : Value :=
  match first with
  | .field owner i => .ofType (t.field owner i).type
  | .global id =>
    let g := t.global id
    match g.constant, g.value with
    | true, some l => .ofLiteral l
    | _, _ => .ofType g.type
  | .class_ id => .ofMembers t none [.class_ id]
  | .method _ => .ofMembers t receiver (members.filter Member.isCallable)
  | .builtin _ => .ofMembers t receiver (members.filter Member.isCallable)

/-- The value of members that were found under one name. -/
def ofMembers? (t : SymbolTable) (receiver : Option Value) : List Member → Option Value
  | [] => none
  | first :: rest => some (t.memberValue receiver first (first :: rest))

@[simp] theorem ofMembers?_eq_none_iff {t : SymbolTable} {receiver : Option Value}
    {members : List Member} : t.ofMembers? receiver members = none ↔ members = [] := by
  cases members <;> simp [ofMembers?]

/-- The value of a name that no local variable has: a member of the class whose method is
analysed, which is then loaded from `self`, else a member of the module, else a builtin. -/
def named (t : SymbolTable) (owner : Option Nat) (self? : Option Value) (name : String) :
    Except Finding Value :=
  let own := owner.bind fun id => t.ofMembers? self? (t.classMembers id name)
  let outer := t.ofMembers? none (t.getMembers name)
  let builtin := (Builtin.ofName? name).map fun b => .ofMembers t none [.builtin b]
  match own <|> outer <|> builtin with
  | some v => .ok v
  | none => .error (.unresolvedIdentifier name)

mutual

/-- The member `name` of `target`, looked up under one of its types.  A member of a union is the
join of what its alternatives have under that name. -/
def findMember (t : SymbolTable) (name : String) (target : Value) : Ty → Option Value
  | .instance_ c => t.ofMembers? (some target) (t.classMembers c.id name)
  | .classObject c => t.ofMembers? (some target) (t.classMembers c.id name)
  | .string =>
    if name = "length" then
      match target.string? with
      | some s => some (.ofLiteral (.number (Float.ofNat s.length)))
      | none => some (.boundedNumber (some 0.0) none)
    else none
  | .number => if name = "min" ∨ name = "max" then some (.ofType .number) else none
  | .any => some .any
  | .union arms =>
    match findMembers t name arms with
    | [] => none
    | [v] => some v
    | vs => some (.ofType (.join (vs.map Value.type)))
  | _ => none
termination_by structural type => type

/-- The members of that name that values of the given types have. -/
def findMembers (t : SymbolTable) (name : String) : List Ty → List Value
  | [] => []
  | type :: rest => (findMember t name (.ofType type) type).toList ++ findMembers t name rest
termination_by structural types => types

end

@[simp] theorem findMember_any (t : SymbolTable) (name : String) (target : Value) :
    t.findMember name target .any = some .any := rfl

/-- The member `name` of a value. -/
def member (t : SymbolTable) (target : Value) (name : String) : Except Finding Value :=
  match t.findMember name target target.type with
  | some v => .ok v
  | none => .error (.unresolvedMember target.type name)

/-- A character of a string, where both are known and the string is that long. -/
def character (target key : Value) : Value :=
  let found := do
    let s ← target.string?
    let i ← Decimal.toIndex? (← key.number?)
    s.toList[i]?
  match found with
  | some c => .ofLiteral (.string (String.singleton c))
  | none => .ofType .string

/-- A member of an object, where its name is known. -/
def entry (t : SymbolTable) (target key : Value) : Except Finding Value :=
  match key.string? with
  | some name => t.member target name
  | none =>
    match key.type with
    | .string => .ok .any
    | .any => .ok .any
    | _ => .error (.notIndexable target.type key.type)

/-- The element of `target` at `key`. -/
def element (t : SymbolTable) (target key : Value) : Except Finding Value :=
  match target.type, key.type with
  | .any, _ => .ok .any
  | .string, .number => .ok (character target key)
  | .string, .any => .ok (.ofType .string)
  | .instance_ _, _ => t.entry target key
  | .classObject _, _ => t.entry target key
  | type, other => .error (.notIndexable type other)

end SymbolTable

end PathTyping
