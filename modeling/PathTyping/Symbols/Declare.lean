import PathTyping.Symbols
import PathTyping.Diagnostic

/-!
# Filing the declarations of a module

Classes are filed by name first, so that an annotation can name a class that stands further down.
Then the items are filed in the order of the text.  What cannot be filed is reported at its name.

1. `typeOf_builtin`: the names of the built-in types cannot be taken by a class.
2. `SymbolTable.ofModule`: the table of a module and what was reported.
-/

namespace PathTyping

/-- The names of types that need no declaration. -/
def Ty.ofName? : String → Option Ty
  | "Any" => some .any
  | "Nil" => some .nil
  | "Boolean" => some .boolean
  | "Number" => some .number
  | "String" => some .string
  | "Function" => some .function
  | _ => none

namespace SymbolTable

/-- The type that a name stands for in an annotation. -/
def typeNamed? (t : SymbolTable) (name : String) : Option Ty :=
  match Ty.ofName? name with
  | some type => some type
  | none => (t.findClass? name).map t.instanceType

/-- The type of an annotation; an unknown name is read as `any`. -/
def typeOf (t : SymbolTable) (a : TypeName) : Ty := (t.typeNamed? a.name).getD .any

/-- The type of a binding: as annotated, else that of a literal value, else `any`. -/
def bindingType (t : SymbolTable) (a : Option TypeName) (value : Option Expr) : Ty :=
  match a with
  | some a => t.typeOf a
  | none =>
    match value.bind Expr.literal? with
    | some l => .ofLiteral l
    | none => .any

/-- What is to be said about annotations whose names are unknown. -/
def unknownTypes (t : SymbolTable) (as : List TypeName) : List Diagnostic :=
  (as.filter fun a => (t.typeNamed? a.name).isNone).map fun a =>
    .error ("unknown type '" ++ a.name ++ "'") (some a.span)

def paramOf (t : SymbolTable) (p : Parameter) : Param where
  name := p.name
  type := t.bindingType p.typeName none
  default := p.default.map fun e =>
    match e.literal? with
    | some l => .literal l
    | none => .expression
  variadic := p.variadic

def methodOf (t : SymbolTable) (owner : Option Nat) (f : FunctionDecl) : Method where
  name := f.name
  owner := owner
  params := f.parameters.map t.paramOf
  returns := f.returns.map t.typeOf
  decl := f

theorem typeOf_builtin (t : SymbolTable) {a : TypeName} {type : Ty}
    (h : Ty.ofName? a.name = some type) : t.typeOf a = type := by
  simp [typeOf, typeNamed?, h]

end SymbolTable

def FunctionDecl.typeNames (f : FunctionDecl) : List TypeName :=
  f.parameters.filterMap (·.typeName) ++ f.returns.toList

/-- A table under construction, and what was reported so far. -/
structure Filing where
  table : SymbolTable
  report : Report

namespace Filing

def empty : Filing := ⟨SymbolTable.empty, Report.empty⟩

def note (s : Filing) (ds : List Diagnostic) : Filing := { s with report := ds.foldl .add s.report }

def alreadyDeclared (name : String) (span : Span) : Diagnostic :=
  .error ("'" ++ name ++ "' is already declared") (some span)

/-! ## Classes by name -/

def nameClass (s : Filing) (c : ClassDecl) : Filing :=
  if (s.table.findClass? c.name).isSome then
    s.note [.error ("duplicate class '" ++ c.name ++ "'") (some c.nameSpan)]
  else
    { s with
      table := { s.table with classes := s.table.classes ++ [⟨c.name, c.nameSpan, [], []⟩] } }

def nameItem (s : Filing) : Item → Filing
  | .class_ c => s.nameClass c
  | _ => s

/-! ## Items -/

/-- Files a method under the next number. -/
def addMethod (s : Filing) (owner : Option Nat) (f : FunctionDecl) : Filing :=
  let s := s.note (s.table.unknownTypes f.typeNames)
  { s with table := { s.table with methods := s.table.methods ++ [s.table.methodOf owner f] } }

def addMember (s : Filing) (name : String) (m : Member) : Filing :=
  { s with table := { s.table with members := s.table.members ++ [(name, m)] } }

/-- A function overloads the functions of its name; it cannot share it with anything else. -/
def addFunction (s : Filing) (f : FunctionDecl) : Filing :=
  match s.table.getMember? f.name with
  | some (.class_ _) | some (.global _) => s.note [alreadyDeclared f.name f.nameSpan]
  | _ => (s.addMethod none f).addMember f.name (.method s.table.methods.length)

def modifyClass (s : Filing) (id : Nat) (change : ClassInfo → ClassInfo) : Filing :=
  { s with table := { s.table with classes := s.table.classes.modify id change } }

/-- Files a field, unless the class has one of its name. -/
def addField (className : String) (id : Nat) (s : Filing) (f : FieldDecl) : Filing :=
  if (s.table.class_ id).fields.any (·.name == f.name) then
    s.note [.error ("duplicate field '" ++ f.name ++ "' in class '" ++ className ++ "'")
      (some f.span)]
  else
    let info : FieldInfo := ⟨f.name, s.table.bindingType f.typeName f.value, f.span⟩
    (s.note (s.table.unknownTypes f.typeName.toList)).modifyClass id fun c =>
      { c with fields := c.fields ++ [info] }

/-- Files a method of a class.  A field of its name hides it. -/
def addClassMethod (className : String) (id : Nat) (s : Filing) (f : FunctionDecl) : Filing :=
  let hidden := (s.table.class_ id).fields.any (·.name == f.name)
  let s := s.note <| if hidden then
      [.warning ("method '" ++ f.name ++ "' is shadowed by a field of class '" ++ className ++ "'")
        (some f.nameSpan)]
    else []
  let number := s.table.methods.length
  (s.addMethod (some id) f).modifyClass id fun c => { c with methods := c.methods ++ [number] }

/-- Files the members of a class that goes by its name.  A second class of one name is passed
over. -/
def addClass (s : Filing) (c : ClassDecl) : Filing :=
  match s.table.findClass? c.name with
  | none => s
  | some id =>
    if (s.table.class_ id).span = c.nameSpan then
      let s := s.note <|
        if (s.table.getMember? c.name).isSome then [alreadyDeclared c.name c.nameSpan] else []
      let s := s.addMember c.name (.class_ id)
      let s := c.fields.foldl (addField c.name id) s
      c.methods.foldl (addClassMethod c.name id) s
    else s

/-- A global cannot share its name with anything. -/
def addGlobal (s : Filing) (g : GlobalDecl) : Filing :=
  if (s.table.getMember? g.name).isSome then s.note [alreadyDeclared g.name g.span]
  else
    let info : GlobalInfo :=
      { name := g.name
        constant := g.constant
        type := s.table.bindingType g.typeName (some g.value)
        value := if g.constant then g.value.literal? else none
        span := g.span }
    let number := s.table.globals.length
    let s := s.note (s.table.unknownTypes g.typeName.toList)
    let s := { s with table := { s.table with globals := s.table.globals ++ [info] } }
    s.addMember g.name (.global number)

def addItem (s : Filing) : Item → Filing
  | .function f => s.addFunction f
  | .class_ c => s.addClass c
  | .global g => s.addGlobal g

def ofModule (m : Module) : Filing :=
  m.items.foldl addItem (m.items.foldl nameItem empty)

end Filing

/-- The table of a module and what was reported about its declarations. -/
def SymbolTable.ofModule (m : Module) : SymbolTable × Report :=
  let s := Filing.ofModule m
  (s.table, s.report)

end PathTyping
