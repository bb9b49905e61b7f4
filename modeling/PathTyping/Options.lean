import PathTyping.Json

/-!
# Options

The limits of the analysis, and how they are read from a JSON document.  A record is an object
whose keys may come in any order, may be missing, but may be neither unknown nor repeated; or an
array of its fields in their order, the last of which may be missing.

1. `ofEntries?_nil`, `ofItems?_nil`: the empty record has the default values.
-/

namespace PathTyping

/-- How a conditional jump is followed. -/
inductive ForkMode
  /-- To both sides. -/
  | symmetric
  /-- Never to its target. -/
  | fallthroughOnly
  deriving DecidableEq, Inhabited

structure AnalysisOptions where
  forkMode : ForkMode
  /-- A call inside as many calls gives the declared type of what it calls. -/
  maxCallDepth : Nat
  /-- A resolution with as many branches no longer forks. -/
  maxBranches : Nat
  deriving DecidableEq, Inhabited

def AnalysisOptions.standard : AnalysisOptions := ⟨.symmetric, 32, 4096⟩

structure Options where
  dumpTokens : Bool
  analysis : AnalysisOptions
  deriving DecidableEq, Inhabited

def Options.standard : Options := ⟨false, .standard⟩

/-! ## Reading -/

namespace Json

def boolean? : Json → Option Bool
  | boolean b => some b
  | _ => none

/-- A count that fits into sixty-four bits. -/
def count? : Json → Option Nat
  | natural n => if n < Nat.pow 2 64 then some n else none
  | _ => none

/-- One field of a record of type `α`: its key, and how its value changes the record. -/
structure Field (α : Type) where
  key : String
  set? : α → Json → Option α

/-- Fields by their keys; `seen` holds the keys that were met. -/
def ofEntries? {α : Type} (fields : List (Field α)) (record : α) (seen : List String) :
    List (String × Json) → Option α
  | [] => some record
  | (key, value) :: rest =>
    if key ∈ seen then none
    else
      match fields.find? (·.key == key) with
      | none => none
      | some field =>
        match field.set? record value with
        | none => none
        | some record => ofEntries? fields record (key :: seen) rest

/-- Fields by their places. -/
def ofItems? {α : Type} : List (Field α) → α → List Json → Option α
  | _, record, [] => some record
  | [], _, _ :: _ => none
  | field :: fields, record, value :: rest =>
    match field.set? record value with
    | none => none
    | some record => ofItems? fields record rest

def record? {α : Type} (fields : List (Field α)) (default : α) : Json → Option α
  | object entries => ofEntries? fields default [] entries
  | array items => ofItems? fields default items
  | _ => none

theorem ofEntries?_nil {α : Type} (fields : List (Field α)) (record : α) (seen : List String) :
    ofEntries? fields record seen [] = some record := rfl

theorem ofItems?_nil {α : Type} (fields : List (Field α)) (record : α) :
    ofItems? fields record [] = some record := by cases fields <;> rfl

end Json

def ForkMode.ofName? : String → Option ForkMode
  | "symmetric" => some .symmetric
  | "fallthrough-only" => some .fallthroughOnly
  | _ => none

/-- A mode is written as its name, or as an object with that name for null. -/
def ForkMode.ofJson? : Json → Option ForkMode
  | .string name => ofName? name
  | .object [(name, .null)] => ofName? name
  | _ => none

def AnalysisOptions.fields : List (Json.Field AnalysisOptions) :=
  [⟨"fork_mode", fun o j => (ForkMode.ofJson? j).map fun m => { o with forkMode := m }⟩,
    ⟨"max_call_depth", fun o j => j.count?.map fun n => { o with maxCallDepth := n }⟩,
    ⟨"max_branches", fun o j => j.count?.map fun n => { o with maxBranches := n }⟩]

def AnalysisOptions.ofJson? : Json → Option AnalysisOptions := Json.record? fields standard

def Options.fields : List (Json.Field Options) :=
  [⟨"dump_tokens", fun o j => j.boolean?.map fun b => { o with dumpTokens := b }⟩,
    ⟨"analysis", fun o j => (AnalysisOptions.ofJson? j).map fun a => { o with analysis := a }⟩]

/-- The options that a document spells. -/
def Options.ofText? (text : String) : Option Options :=
  (Json.read? text.toList).bind (Json.record? fields standard)

end PathTyping
