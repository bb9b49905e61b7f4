/-!
# The command line

What the arguments ask for.  Arguments are read from left to right.  A switch stands before the
verb only if it belongs to the program as a whole, and may be given once, except that `-v` may be
repeated; the value of a switch follows it, or is joined to it by `=`.  Behind `--` every argument
is an operand.

1. `ofArguments?_nil`: without arguments nothing is asked for.
2. `setValue_twice`: a value cannot be given again.
-/

namespace PathTyping

/-- What to do with a source text. -/
inductive Verb
  | check
  | infer
  | ir
  deriving DecidableEq, Inhabited

namespace Verb

def all : List Verb := [check, infer, ir]

def text : Verb → String
  | check => "check"
  | infer => "infer"
  | ir => "ir"

def ofText? (text : String) : Option Verb := all.find? (·.text == text)

theorem ofText?_text (v : Verb) : ofText? v.text = some v := by cases v <;> decide

end Verb

structure Request where
  verb : Verb
  /-- The file that holds the source text. -/
  input : String
  /-- The file that holds options. -/
  config : Option String
  function : Option String
  dumpTokens : Bool
  expression : Option String
  json : Bool
  deriving DecidableEq, Inhabited

/-- What the arguments ask for. -/
inductive Invocation
  | help
  | version
  | run (request : Request)
  deriving DecidableEq, Inhabited

/-! ## Switches -/

inductive Flag
  | verbose
  | dumpTokens
  | json
  | help
  | version
  deriving DecidableEq, Inhabited

/-- Switches that take a value. -/
inductive Setting
  | config
  | function
  | expression
  deriving DecidableEq, Inhabited

inductive Switch
  | flag (f : Flag)
  | setting (s : Setting)
  deriving DecidableEq, Inhabited

namespace Switch

/-- The switches that may stand behind every verb, with their names. -/
def shared : List (String × Switch) :=
  [("verbose", flag .verbose), ("config", setting .config), ("help", flag .help),
    ("function", setting .function), ("dump-tokens", flag .dumpTokens)]

/-- The switches that may stand behind a verb, or before it. -/
def known : Option Verb → List (String × Switch)
  | none => [("verbose", flag .verbose), ("config", setting .config), ("help", flag .help),
      ("version", flag .version)]
  | some .infer => shared ++ [("expression", setting .expression), ("json", flag .json)]
  | some _ => shared

def ofName? (verb : Option Verb) (name : String) : Option Switch :=
  ((known verb).find? (·.1 == name)).map Prod.snd

/-- Flags have letters too. -/
def ofLetter? (verb : Option Verb) (letter : Char) : Option Flag :=
  match letter with
  | 'v' => some .verbose
  | 'h' => some .help
  | 'V' => if verb.isNone then some .version else none
  | _ => none

end Switch

/-! ## Reading arguments -/

/-- What was chosen so far. -/
structure Choices where
  verb : Option Verb
  input : Option String
  /-- The options file that was named before the verb. -/
  outerConfig : Option String
  config : Option String
  function : Option String
  expression : Option String
  dumpTokens : Bool
  json : Bool
  deriving DecidableEq, Inhabited

namespace Choices

def start : Choices := ⟨none, none, none, none, none, none, false, false⟩

/-- A place that was free takes a value. -/
def fill (place : Option String) (value : String) : Option (Option String) :=
  match place with
  | none => some (some value)
  | some _ => none

/-- Gives a setting its value.  A file name is not empty. -/
def setValue (c : Choices) (s : Setting) (value : String) : Option Choices :=
  match s with
  | .config =>
    if value.isEmpty then none else (fill c.config value).map fun v => { c with config := v }
  | .function => (fill c.function value).map fun v => { c with function := v }
  | .expression => (fill c.expression value).map fun v => { c with expression := v }

/-- The words of a text without a verb are verbs; the only operand of a verb is its input. -/
def addOperand (c : Choices) (word : String) : Option Choices :=
  match c.verb with
  | some _ =>
    if word.isEmpty then none else (fill c.input word).map fun v => { c with input := v }
  | none =>
    (Verb.ofText? word).map fun verb =>
      { c with verb := some verb, outerConfig := c.config, config := none }

/-- A flag leads on to more arguments, or settles what is asked for. -/
def addFlag (c : Choices) : Flag → Option (Choices ⊕ Invocation)
  | .verbose => some (.inl c)
  | .dumpTokens => if c.dumpTokens then none else some (.inl { c with dumpTokens := true })
  | .json => if c.json then none else some (.inl { c with json := true })
  | .help => some (.inr .help)
  | .version => some (.inr .version)

/-- The letters of one argument are flags, one after the other. -/
def addLetters (c : Choices) : List Char → Option (Choices ⊕ Invocation)
  | [] => some (.inl c)
  | letter :: rest => do
    let flag ← Switch.ofLetter? c.verb letter
    match ← c.addFlag flag with
    | .inl c => c.addLetters rest
    | .inr found => return .inr found

/-- What was asked for when there are no more arguments. -/
def finish (c : Choices) : Option Invocation :=
  match c.verb, c.input with
  | some verb, some input =>
    if c.expression.isSome && c.function.isSome then none
    else
      some (.run ⟨verb, input, c.config.or c.outerConfig, c.function, c.dumpTokens, c.expression,
        c.json⟩)
  | _, _ => none

/-- What is asked for when all arguments to come are operands. -/
def readOperands (c : Choices) : List String → Option Invocation
  | [] => c.finish
  | word :: rest =>
    match c.verb with
    | none => none
    | some _ => (c.addOperand word).bind (readOperands · rest)

end Choices

/-- An argument by its form. -/
inductive Word
  /-- A name behind two dashes, and the value joined to it. -/
  | long (name : String) (value : Option String)
  /-- Letters behind one dash. -/
  | letters (letters : List Char)
  | operand (text : String)
  deriving DecidableEq, Inhabited

namespace Word

/-- A name up to the first `=`, and what is behind that. -/
def splitValue (text : List Char) : String × Option String :=
  let name := String.ofList (text.takeWhile (· != '='))
  match text.dropWhile (· != '=') with
  | [] => (name, none)
  | _ :: value => (name, some (String.ofList value))

def ofArgument (argument : String) : Word :=
  match argument.toList with
  | '-' :: '-' :: rest =>
    let (name, value) := splitValue rest
    long name value
  | '-' :: c :: rest => letters (c :: rest)
  | _ => operand argument

/-- A value may stand behind its switch unless it looks like a switch itself. -/
def isOperand : Word → Bool
  | operand _ => true
  | _ => false

end Word

/-- What `help` asks for: help, on a verb if one follows. -/
def Invocation.ofTopics? : List String → Option Invocation
  | [] => some .help
  | [topic] => if topic = "help" || (Verb.ofText? topic).isSome then some .help else none
  | _ => none

def Choices.read (c : Choices) : List String → Option Invocation
  | [] => c.finish
  | "--" :: rest => c.readOperands rest
  | argument :: rest =>
    match Word.ofArgument argument with
    | .operand word =>
      if c.verb.isNone && word == "help" then Invocation.ofTopics? rest
      else
        match c.addOperand word with
        | none => none
        | some c => c.read rest
    | .letters letters =>
      match c.addLetters letters with
      | none => none
      | some (.inl c) => c.read rest
      | some (.inr found) => some found
    | .long name value =>
      match Switch.ofName? c.verb name, value with
      | none, _ => none
      | some (.flag _), some _ => none
      | some (.flag flag), none =>
        match c.addFlag flag with
        | none => none
        | some (.inl c) => c.read rest
        | some (.inr found) => some found
      | some (.setting s), some value =>
        match c.setValue s value with
        | none => none
        | some c => c.read rest
      | some (.setting s), none =>
        match rest with
        | [] => none
        | value :: rest =>
          if (Word.ofArgument value).isOperand then
            match c.setValue s value with
            | none => none
            | some c => c.read rest
          else none

/-- What the arguments ask for, if they are well formed. -/
def Invocation.ofArguments? (arguments : List String) : Option Invocation :=
  Choices.start.read arguments

theorem Invocation.ofArguments?_nil : Invocation.ofArguments? [] = none := rfl

theorem Choices.setValue_twice {c d : Choices} {s : Setting} {value : String}
    (h : c.setValue s value = some d) (other : String) : d.setValue s other = none := by
  cases s
  · simp only [setValue] at h ⊢
    split at h
    · exact absurd h nofun
    · split
      · rfl
      · cases hc : c.config <;> simp [fill, hc] at h; subst h; rfl
  · cases hc : c.function <;> simp [setValue, fill, hc] at h; subst h; rfl
  · cases hc : c.expression <;> simp [setValue, fill, hc] at h; subst h; rfl

end PathTyping
