import PathTyping.Command
import PathTyping.Compilation
import PathTyping.Excerpt
import PathTyping.Token.Dump
import PathTyping.Json

/-!
# What a command does

The outcome of a command is its exit status and the two texts that it writes.  Files are read
through a function, so an outcome depends on nothing but the arguments and the files.

A failure is shown with its causes: one cause alone, several numbered from the outermost.

1. `ofArguments_of_none`: arguments that ask for nothing are refused.
2. `status_failure`: a failure is a failure.
-/

namespace PathTyping

/-- Why a file cannot be read. -/
inductive FileError
  | notFound
  | notAllowed
  | notDirectory
  | isDirectory
  | notText
  | other (message : String)
  deriving DecidableEq, Inhabited

def FileError.message : FileError → String
  | notFound => "No such file or directory (os error 2)"
  | notAllowed => "Permission denied (os error 13)"
  | notDirectory => "Not a directory (os error 20)"
  | isDirectory => "Is a directory (os error 21)"
  | notText => "stream did not contain valid UTF-8"
  | other message => message

/-- The texts of files by their names. -/
abbrev Files := String → Except FileError String

inductive Status
  | success
  | failure
  | usage
  /-- The expression to resolve holds no token at all. -/
  | aborted
  deriving DecidableEq, Inhabited

structure Outcome where
  status : Status
  output : String
  errors : String
  deriving DecidableEq, Inhabited

namespace Outcome

def unlines (lines : List String) : String := String.join (lines.map (· ++ "\n"))

def success (output : List String) : Outcome := ⟨.success, unlines output, ""⟩

/-- The outcome after these lines were written. -/
def after (output errors : List String) (o : Outcome) : Outcome :=
  ⟨o.status, unlines output ++ o.output, unlines errors ++ o.errors⟩

/-- Causes as they are listed under a failure. -/
def listCauses : List String → List String
  | [] => []
  | [cause] => ["", "Caused by:", "    " ++ cause]
  | causes =>
    "" :: "Caused by:" :: causes.zipIdx.map fun (cause, i) => "    " ++ toString i ++ ": " ++ cause

def failure (message : String) (causes : List String) : Outcome :=
  ⟨.failure, "", unlines (("Error: " ++ message) :: listCauses causes)⟩

@[simp] theorem status_failure (message : String) (causes : List String) :
    (failure message causes).status = .failure := rfl

@[simp] theorem status_after (output errors : List String) (o : Outcome) :
    (o.after output errors).status = o.status := rfl

end Outcome

/-! ## Parts of an outcome -/

/-- A summary is chosen by its name, or by its name without that of the class. -/
def Summary.isNamed (s : Summary) (name : String) : Bool :=
  s.name == name || (s.name.splitOn ".").getLast? == some name

/-- The summaries that a request is about; if it names a function there has to be one. -/
def Compilation.select (c : Compilation) (function : Option String) :
    Except String (List Summary) :=
  match function with
  | none => .ok c.summaries
  | some name =>
    match c.summaries.filter (·.isNamed name) with
    | [] => .error ("no function or method named '" ++ name ++ "'")
    | chosen => .ok chosen

/-- The entries of the report that start inside the chosen functions. -/
def Compilation.entriesOf (c : Compilation) (function : Option String) :
    Except String (List Diagnostic) :=
  match function with
  | none => .ok c.report.entries
  | some _ => do
    let spans := (← c.select function).map fun s => (c.symbols.method s.id).decl.span
    return c.report.entries.filter fun d =>
      d.span.any fun span => spans.any (·.contains span.line span.column)

/-- The summaries as a document. -/
def summariesDocument (path : String) (summaries : List Summary) : Json :=
  let entry (s : Summary) : Json :=
    .object [("lowered", .boolean s.code.isSome), ("name", .string s.name),
      ("return_type", .string s.returns.describe)]
  .object [("functions", .array (summaries.map entry)), ("path", .string path)]

def expressionDocument (expression : String) (type : Ty) : Json :=
  .object [("expression", .string expression), ("type", .string type.describe)]

def listingOf (s : Summary) : List String :=
  ("fn " ++ s.name ++ ":") ::
    match s.code with
    | some code => code.listing
    | none => ["  <body could not be lowered>"]

namespace Request

/-- Entries of a report as they are shown beside the source text. -/
def shown (r : Request) (text : String) (entries : List Diagnostic) : List String :=
  entries.flatMap fun d => d.excerpt r.input text.toList

def check (r : Request) (text : String) (c : Compilation) : Outcome :=
  match c.entriesOf r.function with
  | .error message => .failure message []
  | .ok entries =>
    let lines := r.shown text entries
    match entries.countP (·.level == .error) with
    | 0 => (Outcome.success [r.input ++ ": ok"]).after [] lines
    | n =>
      let last := r.input ++ ": " ++ toString n ++ " error(s)"
      ⟨.failure, "", Outcome.unlines (lines ++ [last])⟩

def inferExpression (r : Request) (text expression : String) (c : Compilation) : Outcome :=
  match c.expressionType expression with
  | .error failure =>
    if failure.isEmptyText then ⟨.aborted, "", ""⟩
    else .failure ("Failed to parse expression `" ++ expression ++ "`") [failure.message]
  | .ok (type, report) =>
    let line :=
      if r.json then (expressionDocument expression type).compact else type.describe
    (Outcome.success [line]).after [] (r.shown text report.entries)

def inferFunctions (r : Request) (c : Compilation) : Outcome :=
  match c.select r.function with
  | .error message => .failure message []
  | .ok chosen =>
    if r.json then .success [(summariesDocument r.input chosen).pretty 0]
    else .success (chosen.map fun s => s.name ++ ": " ++ s.returns.describe)

def listings (r : Request) (c : Compilation) : Outcome :=
  match c.select r.function with
  | .error message => .failure message []
  | .ok chosen => .success (chosen.flatMap listingOf)

/-- What a request does with a text that compiles. -/
def answer (r : Request) (text : String) (c : Compilation) : Outcome :=
  let lines := r.shown text c.report.entries
  match r.verb, r.expression with
  | .check, _ => r.check text c
  | .infer, some expression => (r.inferExpression text expression c).after [] lines
  | .infer, none => (r.inferFunctions c).after [] lines
  | .ir, _ => (r.listings c).after [] lines

/-- The tokens of a text that has some, if they are asked for. -/
def dumped (r : Request) (text : String) : List String :=
  match r.dumpTokens, TokenRow.ofText text with
  | true, .ok row => row.dump
  | _, _ => []

/-- What a request does with a text. -/
def runOn (r : Request) (options : AnalysisOptions) (text : String) : Outcome :=
  let rest :=
    match Compilation.ofText options text with
    | .ok c => r.answer text c
    | .error f =>
      (Outcome.failure "Compilation failed" f.causes).after [] (r.shown text f.report.entries)
  rest.after (r.dumped text) []

/-- The options of a request, or the failure to read them. -/
def readOptions (r : Request) (files : Files) : Except Outcome Options :=
  match r.config with
  | none => .ok .standard
  | some path =>
    match files path with
    | .error e => .error (.failure ("failed to read config " ++ path) [e.message])
    | .ok text =>
      match Options.ofText? text with
      | none => .error (.failure ("invalid config " ++ path) [])
      | some options => .ok options

/-- The files that a request reads. -/
def paths (r : Request) : List String := r.config.toList ++ [r.input]

def run (r : Request) (files : Files) : Outcome :=
  match r.readOptions files with
  | .error o => o
  | .ok options =>
    match files r.input with
    | .error e => .failure ("Failed to read " ++ Text.quotePath r.input) [e.message]
    | .ok text => r.runOn options.analysis text

end Request

/-! ## Commands -/

def usageText : List String :=
  ["Usage: quill [OPTIONS] <COMMAND>", "", "Commands:",
    "  check  Report diagnostics; exits with status 1 when any error is found",
    "  infer  Print the inferred return type of every function and method",
    "  ir     Print the lowered instruction listing of every function and method",
    "  help   Print this message", "", "Options:",
    "  -v, --verbose        Accepted for every command",
    "      --config <FILE>  JSON file with compiler and analysis options",
    "  -h, --help           Print help", "  -V, --version        Print version"]

/-- What the program does with its arguments. -/
def Outcome.ofArguments (files : Files) (arguments : List String) : Outcome :=
  match Invocation.ofArguments? arguments with
  | none => ⟨.usage, "", Outcome.unlines usageText⟩
  | some .help => .success ("Infer the types quill functions can return." :: "" :: usageText)
  | some .version => .success ["quill 0.1.0"]
  | some (.run r) => r.run files

theorem Outcome.ofArguments_of_none {arguments : List String} (files : Files)
    (h : Invocation.ofArguments? arguments = none) :
    (Outcome.ofArguments files arguments).status = .usage := by
  rw [Outcome.ofArguments, h]

end PathTyping
