import TwoLevel.Definition.Listing
import TwoLevel.Expr.Outline
import TwoLevel.Options

/-! Answering definitions. Every definition is answered by its minimal forms, numbered
from 1, or by an error. A file is read as a whole and answered entry by entry. In a
conversation each line is answered by itself, after a prompt, up to a line `exit` or the
end of the input. -/

set_option autoImplicit false

namespace TwoLevel.Session

open Text

/-- How a run ends: its exit code, and what it has written to its two outputs. The log goes to the
error output as well and is not part of `errors`. -/
structure Ending where
  code : Nat
  output : String
  errors : String
  deriving DecidableEq, Repr

/-- Numbered forms, as outlines or on one line each. -/
def numbered (tree : Bool) (forms : List Expr) : String :=
  String.join (forms.zipIdx.map fun (form, i) =>
    if tree then s!"{i + 1}.\n" ++ form.outlineText else s!"{i + 1}. " ++ form.text ++ "\n")

def report (options : Options) (definition : Definition) : Logged Failure String := do
  let found ← (definition.minimize options.settings).mapError .minimizer
  let forms ← .ofExcept (found.expressions.mapError .minimizer)
  return numbered options.tree forms

/-- The answer to a definition, or to the error in its place, where `label` comes before
the text of an error. -/
def answer (options : Options) (label : String) (definition : Except DefinitionError Definition) :
    List Event × String :=
  let result : Logged Failure String := do
    let d ← .ofExcept (definition.mapError .definition)
    report options d
  match result.outcome with
  | .ok output => (result.events, output)
  | .error failure => (result.events, "Error: " ++ label ++ failure.message ++ "\n")

def answerEntry (options : Options) (entry : Definition.Entry) : List Event × String :=
  answer options s!"line {entry.line}: " entry.definition

def unreadable (path : String) (error : SourceError) : String :=
  "Error reading '" ++ path ++ "': " ++ error.message ++ "\n"

def answerFile (options : Options) (path : String) (content : Except SourceError (List UInt8)) : Ending :=
  match content.bind Definition.readAll with
  | .error error => ⟨1, "", unreadable path error⟩
  | .ok entries => ⟨0, String.join (entries.map fun entry => (answerEntry options entry).2), ""⟩

/-- What one line of a conversation leads to. -/
inductive Turn where
  | reply (events : List Event) (output : String)
  | leave
  | failed (error : SourceError)

/-- One line of a conversation. A blank line is answered by nothing. -/
def turn (options : Options) (line : List UInt8) : Turn :=
  match decode? line with
  | none => .failed .invalidText
  | some text =>
    let words := trim text
    if sameWord words "exit".toList then .leave
    else if words.isEmpty then .reply [] ""
    else
      let (events, output) := answer options "" (Definition.parse words)
      .reply events output

def prompt : String := "> "

def inputError (error : SourceError) : String := "Error reading input: " ++ error.message ++ "\n"

def converse (options : Options) : List (List UInt8) → Ending
  | [] => ⟨0, prompt ++ "\n", ""⟩
  | line :: rest =>
    match turn options line with
    | .leave => ⟨0, prompt, ""⟩
    | .failed error => ⟨1, prompt, inputError error⟩
    | .reply _ output =>
      let ending := converse options rest
      { ending with output := prompt ++ output ++ ending.output }

def versionText : String := "qmc 0.1.0\n"

def helpText : String := String.join ([
  "Quine-McCluskey exact logic minimizer",
  "",
  "Usage: qmc [OPTIONS] [FILE]",
  "",
  "Arguments:",
  "  [FILE]  File with one definition per line (reads stdin interactively if omitted)",
  "",
  "Options:",
  "  -t, --tree                      Print minimal forms as expression trees",
  "  -v, --verbose...                Increase log verbosity (-v info, -vv debug, -vvv trace)",
  "      --trace-columns             Dump every merge column at trace level",
  "      --max-cover-candidates <N>  Abort Petrick's method when a step yields more candidate covers than this",
  "  -h, --help                      Print help",
  "  -V, --version                   Print version"].map (· ++ "\n"))

def misuseText : String := "Usage: qmc [OPTIONS] [FILE]\n"

/-- Run a command line, with the input of a conversation and the contents of files. -/
def run (arguments : List String) (input : List UInt8) (read : String → Except SourceError (List UInt8)) :
    Ending :=
  match Invocation.ofArguments arguments with
  | .misuse => ⟨2, "", misuseText⟩
  | .version => ⟨0, versionText, ""⟩
  | .help => ⟨0, helpText, ""⟩
  | .run options =>
    match options.file? with
    | some path => answerFile options path (read path)
    | none => converse options (rawLines input)

/-- The least severe records that are shown for a number of requests for more output. -/
def threshold : Nat → Severity
  | 0 => .warn
  | 1 => .info
  | 2 => .debug
  | _ => .trace

end TwoLevel.Session
