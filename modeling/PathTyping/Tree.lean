import PathTyping.Span
import PathTyping.Decimal.Text
import PathTyping.Text.Quoted

/-!
# Syntax trees

The form of expressions, statements and declarations.  Every expression carries the span of its
text; `Expr.preorder` and `Stmt.expressions` list the expressions of a tree, each before its parts.

1. `mem_preorder_self`: an expression is among its own expressions.
2. `same_nil`, `same_string`: literals other than numbers are the same when they are equal.
-/

namespace PathTyping

inductive Literal
  | number (value : Float)
  | string (value : String)
  | boolean (value : Bool)
  | nil
  deriving DecidableEq, Inhabited

namespace Literal

/-- The literal as a listing shows it. -/
def text : Literal → String
  | number x => Decimal.write .plain x
  | string s => Text.quote s
  | boolean b => if b then "true" else "false"
  | nil => "nil"

/-- The literal as it reads when it is joined to a string. -/
def plainText : Literal → String
  | string s => s
  | l => l.text

/-- Whether two literals are the same value.  Numbers are compared as numbers are: both zeros are
the same, and what is no number differs from itself. -/
def same : Literal → Literal → Bool
  | number x, number y => x == y
  | string s, string t => s == t
  | boolean b, boolean c => b == c
  | nil, nil => true
  | _, _ => false

@[simp] theorem same_nil : same nil nil = true := rfl

@[simp] theorem same_string (s t : String) : same (string s) (string t) = true ↔ s = t := by
  simp [same]

@[simp] theorem same_boolean (b c : Bool) : same (boolean b) (boolean c) = true ↔ b = c := by
  simp [same]

end Literal

inductive UnaryOp
  | positive
  | negative
  | not
  deriving DecidableEq, Inhabited

def UnaryOp.text : UnaryOp → String
  | .positive => "+"
  | .negative => "-"
  | .not => "!"

inductive BinaryOp
  | add
  | subtract
  | multiply
  | divide
  | modulo
  | equal
  | notEqual
  | greater
  | greaterEqual
  | less
  | lessEqual
  | and
  | or
  deriving DecidableEq, Inhabited

def BinaryOp.text : BinaryOp → String
  | .add => "+"
  | .subtract => "-"
  | .multiply => "*"
  | .divide => "/"
  | .modulo => "%"
  | .equal => "=="
  | .notEqual => "!="
  | .greater => ">"
  | .greaterEqual => ">="
  | .less => "<"
  | .lessEqual => "<="
  | .and => "and"
  | .or => "or"

/-! ## Expressions -/

inductive Expr
  | literal (span : Span) (value : Literal)
  | name (span : Span) (name : String)
  | self (span : Span)
  | unary (span : Span) (op : UnaryOp) (operand : Expr)
  | binary (span : Span) (op : BinaryOp) (left right : Expr)
  | assign (span : Span) (target value : Expr)
  | call (span : Span) (callee : Expr) (arguments : List Expr)
  | member (span : Span) (object : Expr) (name : String) (nameSpan : Span)
  | index (span : Span) (object index : Expr)
  | group (span : Span) (inner : Expr)
  deriving Inhabited

namespace Expr

def span : Expr → Span
  | literal s _ => s
  | name s _ => s
  | self s => s
  | unary s _ _ => s
  | binary s _ _ _ => s
  | assign s _ _ => s
  | call s _ _ => s
  | member s _ _ _ => s
  | index s _ _ => s
  | group s _ => s

/-- What stands left of `=`: a name, a member or an indexed value. -/
def isTarget : Expr → Bool
  | name _ _ => true
  | member _ _ _ _ => true
  | index _ _ _ => true
  | _ => false

mutual

/-- The expression and its parts, each before its own parts, from left to right. -/
def preorder : Expr → List Expr
  | literal s v => [literal s v]
  | name s n => [name s n]
  | self s => [self s]
  | unary s op e => unary s op e :: preorder e
  | binary s op l r => binary s op l r :: (preorder l ++ preorder r)
  | assign s t v => assign s t v :: (preorder t ++ preorder v)
  | call s f args => call s f args :: (preorder f ++ preorderList args)
  | member s o n ns => member s o n ns :: preorder o
  | index s o i => index s o i :: (preorder o ++ preorder i)
  | group s e => group s e :: preorder e

def preorderList : List Expr → List Expr
  | [] => []
  | e :: rest => preorder e ++ preorderList rest

end

theorem mem_preorder_self (e : Expr) : e ∈ e.preorder := by cases e <;> simp [preorder]

theorem preorderList_eq_flatMap (es : List Expr) : preorderList es = es.flatMap preorder := by
  induction es with
  | nil => rfl
  | cons e es ih => rw [preorderList, ih, List.flatMap_cons]

end Expr

/-! ## Statements -/

inductive Stmt
  | var (nameSpan : Span) (name : String) (value : Expr)
  | cond (span : Span) (condition : Expr) (consequent : List Stmt)
      (alternative : Option (List Stmt))
  | loop (span : Span) (condition : Expr) (body : List Stmt)
  | ret (span : Span) (value : Option Expr)
  | expr (value : Expr)
  deriving Inhabited

namespace Stmt

mutual

/-- The expressions of a statement in the order of the text. -/
def expressions : Stmt → List Expr
  | var _ _ e => e.preorder
  | cond _ c a b =>
    c.preorder ++ blockExpressions a ++
      (match b with
        | some b => blockExpressions b
        | none => [])
  | loop _ c b => c.preorder ++ blockExpressions b
  | ret _ (some e) => e.preorder
  | ret _ none => []
  | expr e => e.preorder
termination_by structural s => s

def blockExpressions : List Stmt → List Expr
  | [] => []
  | s :: rest => expressions s ++ blockExpressions rest
termination_by structural b => b

end

end Stmt

/-! ## Declarations -/

/-- The name of a type as it is written behind a name. -/
structure TypeName where
  name : String
  span : Span
  deriving DecidableEq, Inhabited

structure Parameter where
  name : String
  span : Span
  typeName : Option TypeName
  default : Option Expr
  /-- Takes all arguments from its position on. -/
  variadic : Bool
  deriving Inhabited

structure FunctionDecl where
  name : String
  nameSpan : Span
  parameters : List Parameter
  returns : Option TypeName
  body : List Stmt
  span : Span
  deriving Inhabited

def FunctionDecl.expressions (f : FunctionDecl) : List Expr := Stmt.blockExpressions f.body

structure FieldDecl where
  name : String
  span : Span
  typeName : Option TypeName
  value : Option Expr
  deriving Inhabited

structure ClassDecl where
  name : String
  nameSpan : Span
  fields : List FieldDecl
  methods : List FunctionDecl
  deriving Inhabited

structure GlobalDecl where
  constant : Bool
  name : String
  span : Span
  typeName : Option TypeName
  value : Expr
  deriving Inhabited

inductive Item
  | function (decl : FunctionDecl)
  | class_ (decl : ClassDecl)
  | global (decl : GlobalDecl)
  deriving Inhabited

structure Module where
  items : List Item
  deriving Inhabited

/-- The functions of a module, those of a class at its place, under the names that tell them. -/
def Module.functions (m : Module) : List (String × FunctionDecl) :=
  m.items.flatMap fun
    | .function f => [(f.name, f)]
    | .class_ c => c.methods.map fun f => (c.name ++ "." ++ f.name, f)
    | .global _ => []

end PathTyping
