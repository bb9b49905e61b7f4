import PathTyping.Value
import PathTyping.Diagnostic
import PathTyping.Code

/-!
# What an analysis remembers

An analysis keeps a report, the code of the bodies that it has entered, the calls that it is in the
middle of, and the results of the calls that it has followed to their end.  Results are kept under a
key that holds what a body can see of the values it is called with.

1. `ValueKey.of_copy`: a copy of a value is seen as the value is.
2. `find_remember_self`: results that are kept are found again.
-/

namespace PathTyping

/-- A call as the guard against recursion sees it. -/
structure CallKey where
  method : Nat
  receiver : Option Ty
  arguments : List Ty
  deriving DecidableEq, Inhabited

/-- A literal as a key; numbers are told apart by their bits. -/
inductive LiteralKey
  | number (bits : UInt64)
  | string (s : String)
  | boolean (b : Bool)
  | nil
  deriving DecidableEq, Inhabited

def LiteralKey.of : Literal → LiteralKey
  | .number x => .number x.toBits
  | .string s => .string s
  | .boolean b => .boolean b
  | .nil => .nil

/-- What a value carries beside its type. -/
structure ValueKey where
  constant : Option LiteralKey
  least : Option UInt64
  greatest : Option UInt64
  members : Option (List Member)
  deriving DecidableEq, Inhabited

def ValueKey.of (v : Value) : ValueKey :=
  ⟨v.constant.map .of, v.bounds.1.map Float.toBits, v.bounds.2.map Float.toBits, v.members⟩

@[simp] theorem ValueKey.of_copy (v : Value) : ValueKey.of v.copy = ValueKey.of v := by
  simp [ValueKey.of]

/-- A call as the memo sees it. -/
structure MemoKey where
  call : CallKey
  receiver : Option ValueKey
  arguments : List ValueKey
  deriving DecidableEq, Inhabited

/-- The key of a call.  A method of a class is called on a receiver, or else on a fresh instance of
its class. -/
def CallKey.of (t : SymbolTable) (id : Nat) (receiver : Option Value) (arguments : List Value) :
    CallKey :=
  ⟨id, (t.method id).owner.map fun owner => receiver.elim (t.instanceType owner) Value.type,
    arguments.map Value.type⟩

def MemoKey.of (t : SymbolTable) (id : Nat) (receiver : Option Value) (arguments : List Value) :
    MemoKey :=
  ⟨.of t id receiver arguments, receiver.map .of, arguments.map .of⟩

structure Memory where
  report : Report
  /-- The code of the bodies that were entered, or that a body has none. -/
  bodies : Assoc Nat (Option Code)
  /-- The calls that are being followed, the innermost first. -/
  stack : List CallKey
  results : Assoc MemoKey (List Value)
  /-- How many calls were not followed. -/
  cutoffs : Nat
  /-- The next label that no value has. -/
  nextLabel : Nat
  deriving Inhabited

namespace Memory

def empty : Memory := ⟨.empty, [], [], [], 0, 1⟩

/-- Gives labels of their own to a value and its properties where they have none. -/
def place (m : Memory) (v : Value) : Value × Memory :=
  let (v, next) := v.place m.nextLabel
  (v, { m with nextLabel := next })

def add (m : Memory) (d : Diagnostic) : Memory := { m with report := m.report.add d }

def find? (m : Memory) (key : MemoKey) : Option (List Value) := Assoc.find? m.results key

def remember (m : Memory) (key : MemoKey) (values : List Value) : Memory :=
  { m with results := Assoc.insert m.results key values }

def push (m : Memory) (call : CallKey) : Memory := { m with stack := call :: m.stack }

def pop (m : Memory) : Memory := { m with stack := m.stack.tail }

/-- The object `label` is held by results that are kept. -/
def holds (m : Memory) (label : Nat) : Bool :=
  m.results.any fun (_, values) => values.any (·.reaches label)

@[simp] theorem find_remember_self (m : Memory) (key : MemoKey) (values : List Value) :
    (m.remember key values).find? key = some values := by simp [remember, find?]

theorem find_remember_of_ne (m : Memory) {key other : MemoKey} (values : List Value)
    (h : key ≠ other) : (m.remember key values).find? other = m.find? other := by
  simp [remember, find?, Assoc.find?_insert_of_ne _ _ h]

@[simp] theorem pop_push (m : Memory) (call : CallKey) : (m.push call).pop = m := rfl

@[simp] theorem stack_push (m : Memory) (call : CallKey) :
    (m.push call).stack = call :: m.stack := rfl

end Memory

end PathTyping
