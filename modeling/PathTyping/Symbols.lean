import PathTyping.Tree
import PathTyping.Ty

/-!
# Symbol tables

What the names of a module stand for.  Methods, classes and globals are numbered in the order of
their declarations; module functions are methods without an owner.  A name can stand for several
members, which are then overloads.

1. `classMembers_eq`: the fields of a name come before the methods of that name.
2. `maxArity_eq_none_iff`: the number of arguments is unbounded when a parameter takes the rest.
-/

namespace PathTyping

/-- Functions that need no declaration. -/
inductive Builtin
  | print
  | str
  | num
  deriving DecidableEq, Inhabited

/-- What a name can stand for. -/
inductive Member
  | method (id : Nat)
  | class_ (id : Nat)
  | global (id : Nat)
  | field (owner index : Nat)
  | builtin (which : Builtin)
  deriving DecidableEq, Inhabited

def Member.isCallable : Member → Bool
  | .method _ => true
  | .builtin _ => true
  | _ => false

def Member.isMethod : Member → Bool
  | .method _ => true
  | _ => false

def Ty.ofLiteral : Literal → Ty
  | .number _ => .number
  | .string _ => .string
  | .boolean _ => .boolean
  | .nil => .nil

/-- The literal that an expression is, in parentheses and with minus signs before a number. -/
def Expr.literal? : Expr → Option Literal
  | .literal _ l => some l
  | .group _ e => e.literal?
  | .unary _ .negative e =>
    match e.literal? with
    | some (.number x) => some (.number (-x))
    | _ => none
  | _ => none

/-! ## Parameters -/

/-- The value of a parameter without an argument, as far as it is known. -/
inductive ParamDefault
  | literal (value : Literal)
  | expression
  deriving Inhabited

structure Param where
  name : String
  /-- `any` where nothing is declared. -/
  type : Ty
  default : Option ParamDefault
  variadic : Bool
  deriving Inhabited

namespace Param

/-- An argument has to be given. -/
def isRequired (p : Param) : Bool := p.default.isNone && !p.variadic

end Param

/-- The least number of arguments. -/
def minArity (params : List Param) : Nat := params.countP Param.isRequired

/-- The greatest number of arguments, if there is one. -/
def maxArity (params : List Param) : Option Nat :=
  if params.any Param.variadic then none else some params.length

theorem maxArity_eq_none_iff {params : List Param} :
    maxArity params = none ↔ ∃ p ∈ params, p.variadic = true := by
  simp [maxArity]

theorem minArity_le_length (params : List Param) : minArity params ≤ params.length :=
  List.countP_le_length

namespace Builtin

def all : List Builtin := [print, str, num]

def name : Builtin → String
  | print => "print"
  | str => "str"
  | num => "num"

def ofName? (name : String) : Option Builtin := all.find? (·.name == name)

def params : Builtin → List Param
  | print => [⟨"values", .any, none, true⟩]
  | str => [⟨"value", .any, none, false⟩]
  | num => [⟨"value", .any, none, false⟩]

def returns : Builtin → Ty
  | print => .nil
  | str => .string
  | num => .number

theorem ofName?_name (b : Builtin) : ofName? b.name = some b := by cases b <;> decide

end Builtin

/-! ## Declarations -/

structure Method where
  name : String
  /-- The class whose method it is. -/
  owner : Option Nat
  params : List Param
  returns : Option Ty
  decl : FunctionDecl
  deriving Inhabited

structure FieldInfo where
  name : String
  type : Ty
  span : Span
  deriving Inhabited

structure ClassInfo where
  name : String
  span : Span
  fields : List FieldInfo
  methods : List Nat
  deriving Inhabited

structure GlobalInfo where
  name : String
  constant : Bool
  type : Ty
  /-- The value of a constant that is a literal. -/
  value : Option Literal
  span : Span
  deriving Inhabited

structure SymbolTable where
  methods : List Method
  classes : List ClassInfo
  globals : List GlobalInfo
  /-- The members of the module by name, in the order of the text. -/
  members : List (String × Member)
  deriving Inhabited

namespace SymbolTable

def empty : SymbolTable := ⟨[], [], [], []⟩

/-! A number that no declaration has is read as that of a nameless one. -/

def method (t : SymbolTable) (id : Nat) : Method := t.methods[id]?.getD default

def class_ (t : SymbolTable) (id : Nat) : ClassInfo := t.classes[id]?.getD default

def global (t : SymbolTable) (id : Nat) : GlobalInfo := t.globals[id]?.getD default

def field (t : SymbolTable) (owner index : Nat) : FieldInfo :=
  (t.class_ owner).fields[index]?.getD default

/-- The first class of that name. -/
def findClass? (t : SymbolTable) (name : String) : Option Nat :=
  t.classes.findIdx? (·.name == name)

/-- The first member of that name. -/
def getMember? (t : SymbolTable) (name : String) : Option Member :=
  (t.members.find? (·.1 == name)).map (·.2)

/-- Every member of that name, in the order of the text. -/
def getMembers (t : SymbolTable) (name : String) : List Member :=
  (t.members.filter (·.1 == name)).map (·.2)

def fieldMembers (t : SymbolTable) (owner : Nat) (name : String) : List Member :=
  ((t.class_ owner).fields.zipIdx.filter (·.1.name == name)).map fun (_, i) => .field owner i

def methodMembers (t : SymbolTable) (owner : Nat) (name : String) : List Member :=
  ((t.class_ owner).methods.filter fun id => (t.method id).name == name).map .method

/-- The fields of that name in a class, then its methods of that name. -/
def classMembers (t : SymbolTable) (owner : Nat) (name : String) : List Member :=
  t.fieldMembers owner name ++ t.methodMembers owner name

/-- A method's name behind that of its class. -/
def qualifiedName (t : SymbolTable) (id : Nat) : String :=
  match (t.method id).owner with
  | some owner => (t.class_ owner).name ++ "." ++ (t.method id).name
  | none => (t.method id).name

def memberName (t : SymbolTable) : Member → String
  | .method id => t.qualifiedName id
  | .class_ id => (t.class_ id).name
  | .global id => (t.global id).name
  | .field owner i => (t.class_ owner).name ++ "." ++ (t.field owner i).name
  | .builtin b => b.name

/-- The parameters of a member that can be called. -/
def params? (t : SymbolTable) : Member → Option (List Param)
  | .method id => some (t.method id).params
  | .builtin b => some b.params
  | _ => none

def classRef (t : SymbolTable) (id : Nat) : ClassRef := ⟨id, (t.class_ id).name⟩

def classType (t : SymbolTable) (id : Nat) : Ty := .classObject (t.classRef id)

def instanceType (t : SymbolTable) (id : Nat) : Ty := .instance_ (t.classRef id)

theorem classMembers_eq (t : SymbolTable) (owner : Nat) (name : String) :
    t.classMembers owner name = t.fieldMembers owner name ++ t.methodMembers owner name := rfl

theorem params?_isSome (t : SymbolTable) (m : Member) :
    (t.params? m).isSome = m.isCallable := by
  cases m <;> rfl

end SymbolTable

end PathTyping
