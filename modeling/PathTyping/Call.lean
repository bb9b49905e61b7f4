import PathTyping.Analysis
import PathTyping.Overload

/-!
# Calls

What a call gives before the body of the callee is entered: the candidate is chosen, the arguments
of a construction are counted, and what cannot be called is reported.  How a body is entered is a
parameter, so that this module says nothing about recursion.

1. `call_of_any`, `call_of_function`: an unknown callee may give anything.
-/

namespace PathTyping

/-- Enters a method, with a receiver if one is at hand, and gives its results. -/
abbrev Invoke := Context → Nat → Option Value → List Value → Span → Analysis (List Value)

namespace Analysis

/-- What is wrong with a construction.  A class without initialisers takes no arguments, or one for
each field. -/
def constructionFault (t : SymbolTable) (id : Nat) (arguments : List Ty) : Option Finding :=
  let info := t.class_ id
  match (t.classMembers id "init").filter Member.isMethod with
  | [] =>
    if arguments.isEmpty || arguments.length == info.fields.length then none
    else some (.noMatchingOverload info.name arguments)
  | initialisers =>
    match Choice.of? t initialisers arguments with
    | some ⟨member, false⟩ => some (.noMatchingOverload (t.memberName member) arguments)
    | _ => none

def reportFault (fault : Option Finding) (span : Span) : Analysis Unit :=
  match fault with
  | some f => report f span
  | none => pure ()

def construct (ctx : Context) (id : Nat) (arguments : List Value) (span : Span) :
    Analysis (List Value) := do
  reportFault (constructionFault ctx.symbols id (arguments.map Value.type)) span
  return [.ofType (ctx.symbols.instanceType id)]

/-- The receiver that a callee was loaded from, if it is still held. -/
def receiver? (ctx : Context) (callee : Value) : Analysis (Option Value) := do
  let m ← get
  return callee.target.filter fun receiver => ctx.holds m receiver.label

/-- What a call comes down to. -/
inductive Request
  /-- Nothing has to be followed. -/
  | answered (values : List Value)
  /-- A method has to be entered. -/
  | enter (id : Nat) (receiver : Option Value)

/-- Asks for the candidate among `members` that the arguments fit best. -/
def requestMembers (ctx : Context) (callee : Value) (members : List Member)
    (arguments : List Value) (span : Span) : Analysis Request := do
  let types := arguments.map Value.type
  match Choice.of? ctx.symbols members types with
  | none => return .answered [.any]
  | some choice =>
    let name := ctx.symbols.memberName choice.member
    reportFault (if choice.matched then none else some (.noMatchingOverload name types)) span
    match choice.member with
    | .method id => return .enter id (← receiver? ctx callee)
    | .builtin b => return .answered [.ofType b.returns]
    | _ => return .answered [.any]

def request (ctx : Context) (callee : Value) (arguments : List Value) (span : Span) :
    Analysis Request := do
  match callee.members with
  | some (.class_ id :: _) => return .answered (← construct ctx id arguments span)
  | some members => requestMembers ctx callee members arguments span
  | none =>
    match callee.type with
    | .any => return .answered [.any]
    | .function => return .answered [.any]
    | type => do
      report (.notCallable type) span
      return .answered [.any]

/-- The results of a call, where `ctx` already counts the arena of the caller. -/
def call (invoke : Invoke) (ctx : Context) (callee : Value) (arguments : List Value)
    (span : Span) : Analysis (List Value) := do
  match ← request ctx callee arguments span with
  | .answered values => return values
  | .enter id receiver => invoke ctx id receiver arguments span

theorem call_of_any (invoke : Invoke) (ctx : Context) (arguments : List Value) (span : Span) :
    call invoke ctx .any arguments span = pure [.any] := rfl

theorem call_of_function (invoke : Invoke) (ctx : Context) (arguments : List Value)
    (span : Span) : call invoke ctx (.ofType .function) arguments span = pure [.any] := rfl

end Analysis

end PathTyping
