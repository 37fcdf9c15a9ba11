import EventCuts.Command.Options
import EventCuts.Compile
import EventCuts.Expr.Name
import EventCuts.Json.Reader
import EventCuts.Json.Writer

/-!
# Running a command

A command reads all events, compiles the expression against the columns they have,
evaluates it on each of them, and then writes line by line. What has been written before
a failure stays written.
-/

namespace EventCuts.Command

inductive Failure where
  | misuse
  | invalidEvent (index : Nat)
  | parse (error : ParseError)
  | evaluation (index : Nat) (error : EvalError)

namespace Failure

def exitCode : Failure → UInt32
  | misuse | parse _ => 2
  | invalidEvent _ | evaluation _ _ => 1

def message : Failure → String
  | misuse => "usage: cutexpr [OPTIONS] <EXPRESSION>"
  | invalidEvent index => "event " ++ toString index ++ " is not valid"
  | parse error => error.message
  | evaluation index error => "event " ++ toString index ++ ": " ++ error.message

end Failure

/-- A run that may fail, on top of what stands on the standard output so far. -/
abbrev Writing (α : Type) := ExceptT Failure (StateM String) α

def writeLine (line : String) : Writing Unit := modify fun written => written ++ (line ++ "\n")

def writeLines : List String → Writing Unit
  | [] => pure ()
  | line :: rest => do
    writeLine line
    writeLines rest

/-- The results on all items, or the index of the first one without and its error. -/
def collect {α β ε : Type} (f : α → Except ε β) : Nat → List α → Except (Nat × ε) (List β)
  | _, [] => .ok []
  | index, a :: rest =>
    match f a with
    | .error e => .error (index, e)
    | .ok b => (collect f (index + 1) rest).map (b :: ·)

def readEvents (read : String → Option Record) (events : List String) :
    Except Failure (List Record) :=
  (collect (fun text => ((read text).elim (.error ()) .ok : Except Unit Record)) 0 events).mapError
    fun failed => .invalidEvent failed.1

def evaluateAll (e : Expr Record) (records : List Record) : Except Failure (List Value) :=
  (collect e.eval 0 records).mapError fun failed => .evaluation failed.1 failed.2

def padRight (width : Nat) (text : String) : String :=
  text ++ String.ofList (List.replicate (width - text.length) ' ')

def lexemeLine (lexeme : Lexeme) : String := padRight 16 lexeme.kind.name ++ " " ++ lexeme.text

def valueLine (index : Nat) (value : Value) : String :=
  "event " ++ toString index ++ ": " ++ value.text ++
    (if value.passes then " [pass]" else " [fail]")

def headerLine (e : Expr Record) : String :=
  e.name ++ " (" ++ e.shape.name ++ ", " ++ e.plainName ++ ")"

def document (e : Expr Record) (values : List Value) : Json :=
  .object [("name", .text e.name), ("plain_name", .text e.plainName),
    ("shape", .text e.shape.name), ("values", .array (values.map Value.toJson))]

def writeResults (json : Bool) (e : Expr Record) (values : List Value) : Writing Unit :=
  if json then writeLine ((document e values).indented 0)
  else do
    writeLine (headerLine e)
    writeLines (values.mapIdx valueLine)

def evaluateOn (records : List Record) (options : Options) : Writing Unit := do
  let schema := (RecordSchema.ofRecords records).schema
  let e ← liftExcept ((parse schema options.expression).mapError Failure.parse)
  let values ← liftExcept (evaluateAll e records)
  writeResults options.json e values

def evaluate (read : String → Option Record) (options : Options) : Writing Unit := do
  let records ← liftExcept (readEvents read options.events)
  if options.tokens then writeLines ((Lexeme.ofSource options.expression).map lexemeLine)
  else evaluateOn records options

structure Outcome where
  exitCode : UInt32
  stdout : String
  stderr : String

def Writing.outcome (w : Writing Unit) : Outcome :=
  match w.run.run "" with
  | (.ok (), written) => ⟨0, written, ""⟩
  | (.error f, written) => ⟨f.exitCode, written, f.message ++ "\n"⟩

def versionLine : String := "cutexpr 0.2.0"

def helpLines : List String :=
  ["Compile a cut or variable expression and evaluate it against events",
    "",
    "Usage: cutexpr [OPTIONS] <EXPRESSION>",
    "",
    "Arguments:",
    "  <EXPRESSION>  expression to compile, e.g. 'met>200&&njets>=6'",
    "",
    "Options:",
    "  -e, --event <EVENT>  event as a JSON object of column name to number or array of " ++
      "numbers; may be given several times",
    "      --tokens         print the tokens of the expression instead of evaluating it",
    "      --json           emit results as JSON",
    "  -h, --help           Print help",
    "  -V, --version        Print version"]

def run (arguments : List String) : Outcome :=
  match Request.ofArguments arguments with
  | .evaluate options => (evaluate Record.ofJson? options).outcome
  | .version => (writeLine versionLine).outcome
  | .help => (writeLines helpLines).outcome
  | .misuse => Writing.outcome (throw .misuse)

end EventCuts.Command
